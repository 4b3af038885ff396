import CodexFormal.Foundation.AsciiCase
import CodexFormal.Uri.PathUri

/-!
# Containment of path URIs

A path whose components are unambiguous has a location: its convention, its
host and the names of its components, as its convention compares them.  Such a
path starts with another URI exactly if that one has a location above it or at
the same place.
-/

set_option autoImplicit false

namespace CodexFormal.Uri

open Foundation List
open Patch (Text)

structure Location where
  convention : PathConvention
  host : Option Text
  names : List Text
deriving DecidableEq, Repr

namespace Location

def depth (location : Location) : Nat := location.names.length

/-- At the place of the base or below it. -/
def Within (path base : Location) : Prop :=
  base.convention = path.convention ∧ base.host = path.host ∧ base.names <+: path.names

instance (path base : Location) : Decidable (path.Within base) :=
  inferInstanceAs (Decidable (_ ∧ _ ∧ _))

theorem Within.refl (path : Location) : path.Within path := ⟨rfl, rfl, prefix_rfl⟩

theorem Within.trans {path mid base : Location} (lower : path.Within mid)
    (upper : mid.Within base) : path.Within base :=
  ⟨upper.1.trans lower.1, upper.2.1.trans lower.2.1, upper.2.2.trans lower.2.2⟩

theorem Within.depth_le {path base : Location} (within : path.Within base) :
    base.depth ≤ path.depth :=
  within.2.2.length_le

theorem Within.of_depth_le {path first second : Location} (belowFirst : path.Within first)
    (belowSecond : path.Within second) (shallower : first.depth ≤ second.depth) :
    second.Within first :=
  ⟨belowFirst.1.trans belowSecond.1.symm, belowFirst.2.1.trans belowSecond.2.1.symm,
    prefix_of_prefix_length_le belowFirst.2.2 belowSecond.2.2 shallower⟩

theorem Within.eq_of_depth_le {path base : Location} (within : path.Within base)
    (asDeep : path.depth ≤ base.depth) : path = base := by
  obtain ⟨convention, host, names⟩ := path
  obtain ⟨sameConv, sameHost, front⟩ := within
  cases base
  subst sameConv sameHost
  have same := front.eq_of_length (Nat.le_antisymm front.length_le asDeep)
  subst same
  rfl

end Location

namespace PathUri

variable (lib : UrlLibrary)

def segmentName (convention : PathConvention) (segment : Text) : Text :=
  match convention with
  | .posix => lib.decodeSegment segment
  | .windows => lowercase (lib.decodeSegment segment)

def location (uri : PathUri) : Option Location :=
  match uri with
  | fallback _ => none
  | file url =>
    (inferPathConvention uri).bind fun convention =>
      (containmentPathSegments lib url convention).map fun segments =>
        ⟨convention, url.host, segments.map (segmentName lib convention)⟩

theorem lexicalDepth_eq (uri : PathUri) :
    lexicalDepth lib uri = (location lib uri).map Location.depth := by
  cases uri with
  | fallback bytes => rfl
  | file url =>
    simp only [lexicalDepth, location]
    cases inferPathConvention (file url) with
    | none => rfl
    | some convention =>
      cases segs : containmentPathSegments lib url convention with
      | none => simp [segs]
      | some segs => simp [segs, Location.depth]

variable {lib} in
theorem convention_of_location {uri : PathUri} {place : Location}
    (loc : location lib uri = some place) : inferPathConvention uri = some place.convention := by
  cases uri with
  | fallback bytes => cases loc
  | file url =>
    obtain ⟨convention, infer, rest⟩ := Option.bind_eq_some_iff.mp loc
    obtain ⟨segs, _, rfl⟩ := Option.map_eq_some_iff.mp rest
    exact infer

theorem slash_mem_lowercase (text : Text) : '/' ∈ lowercase text ↔ '/' ∈ text := by
  unfold lowercase
  rw [mem_map]
  constructor
  · rintro ⟨c, mem, lower⟩
    rwa [← (AsciiCase.toLower_eq_iff c '/' rfl).mp lower]
  · intro mem
    exact ⟨'/', mem, rfl⟩

theorem lowercase_intercalate (texts : List Text) :
    lowercase (List.intercalate ['/'] texts) = List.intercalate ['/'] (texts.map lowercase) := by
  induction texts with
  | nil => rfl
  | cons first rest ih =>
    cases rest with
    | nil => simp [lowercase]
    | cons second rest =>
      rw [intercalate_cons_cons, map_cons, map_cons, intercalate_cons_cons, ← map_cons, ← ih]
      simp [lowercase]

theorem filter_splitOn_intercalate (texts : List Text) (plain : ∀ text ∈ texts, '/' ∉ text) :
    ((List.intercalate ['/'] texts).splitOn '/').filter (· ≠ []) = texts.filter (· ≠ []) := by
  cases texts with
  | nil => rfl
  | cons first rest => rw [splitOn_intercalate '/' plain (cons_ne_nil first rest)]

variable (convention : PathConvention)

theorem segmentName_eq_nil (seg : Text) : segmentName lib convention seg = [] ↔ seg = [] := by
  cases convention with
  | posix => exact lib.decode_eq_nil seg
  | windows =>
    simp only [segmentName, lowercase, map_eq_nil_iff]
    exact lib.decode_eq_nil seg

variable (url : FileUrl)

theorem map_segmentName_nonEmptySegments : url.nonEmptySegments.map (segmentName lib convention) =
    (url.segments.map (segmentName lib convention)).filter (· ≠ []) := by
  unfold FileUrl.nonEmptySegments
  rw [filter_map]
  congr 2
  funext seg
  simp [segmentName_eq_nil]

/-- No component decodes to text with a separator in it. -/
def HasPlainSegments (convention : PathConvention) (segments : List Text) : Prop :=
  ∀ segment ∈ segments, ∀ c ∈ lib.decodeSegment segment, convention.isSeparator c = false

variable {lib url} in
theorem containmentPathSegments_eq_some_iff {convention : PathConvention} {segs : List Text} :
    containmentPathSegments lib url convention = some segs ↔
    HasPlainSegments lib convention url.nonEmptySegments ∧ segs = url.nonEmptySegments := by
  have plain : HasPlainSegments lib convention url.nonEmptySegments ↔
      ¬ (url.nonEmptySegments.any fun seg =>
        (lib.decodeSegment seg).any convention.isSeparator) = true := by
    simp [HasPlainSegments]
  unfold containmentPathSegments
  rw [plain]
  split
  next separator =>
    simp [separator]
  next noSeparator =>
    rw [Option.some.injEq, and_iff_right noSeparator]
    exact eq_comm

theorem location_eq_some_iff (place : Location) : location lib (file url) = some place ↔
    ∃ convention, inferPathConvention (file url) = some convention ∧
    HasPlainSegments lib convention url.nonEmptySegments ∧ place = ⟨convention, url.host,
    url.nonEmptySegments.map (segmentName lib convention)⟩ := by
  unfold location
  constructor
  · intro loc
    obtain ⟨convention, infer, rest⟩ := Option.bind_eq_some_iff.mp loc
    obtain ⟨segs, isIn, rfl⟩ := Option.map_eq_some_iff.mp rest
    obtain ⟨plain, rfl⟩ := containmentPathSegments_eq_some_iff.mp isIn
    exact ⟨convention, infer, plain, rfl⟩
  · rintro ⟨convention, infer, plain, rfl⟩
    have isIn := containmentPathSegments_eq_some_iff.mpr ⟨plain, rfl⟩
    simp [infer, isIn]

theorem windowsIdentityPath_eq_some (path : Text)
    (ident : windowsIdentityPath lib (file url) = some path) :
    inferPathConvention (file url) = some .windows ∧ HasPlainSegments lib .windows url.segments ∧
    path = '/' :: List.intercalate ['/'] (url.segments.map lib.decodeSegment) := by
  unfold windowsIdentityPath at ident
  dsimp only at ident
  split at ident
  · cases ident
  next noReason =>
    rw [not_or, not_not] at noReason
    refine ⟨noReason.1, ?_, (Option.some.inj ident).symm⟩
    simpa [HasPlainSegments, PathConvention.isSeparator] using noReason.2

theorem noSlash_of_hasPlainSegments (segs : List Text)
    (plain : HasPlainSegments lib .windows segs) :
    ∀ text ∈ (segs.map lib.decodeSegment).map lowercase, '/' ∉ text := by
  intro text mem
  obtain ⟨read, decodedMem, rfl⟩ := mem_map.mp mem
  obtain ⟨seg, segmentMem, rfl⟩ := mem_map.mp decodedMem
  rw [slash_mem_lowercase]
  intro slash
  have separator := plain seg segmentMem '/' slash
  cases separator

variable (first second : PathUri)

section

variable (same : eqUri lib first second = true)

include same

variable {lib first second} in
/-- URIs are equal as they are, or they are Windows paths whose names agree in lower case. -/
theorem eqUri_cases :
    first = second ∨ ∃ url other : FileUrl, first = file url ∧ second = file other ∧
    inferPathConvention first = some .windows ∧ inferPathConvention second = some .windows ∧
    HasPlainSegments lib .windows url.segments ∧
    HasPlainSegments lib .windows other.segments ∧ url.host = other.host ∧
    List.intercalate ['/'] ((url.segments.map lib.decodeSegment).map lowercase) =
    List.intercalate ['/'] ((other.segments.map lib.decodeSegment).map lowercase) := by
  unfold eqUri at same
  rw [Bool.or_eq_true, beq_iff_eq] at same
  rcases same with same | same
  · exact .inl same
  · right
    cases first with
    | fallback bytes => cases same
    | file url =>
      cases second with
      | fallback bytes => cases same
      | file other =>
        dsimp only at same
        cases ident : windowsIdentityPath lib (file url) with
        | none => simp [ident] at same
        | some path =>
          cases otherIdentity : windowsIdentityPath lib (file other) with
          | none => simp [ident, otherIdentity] at same
          | some otherPath =>
            simp only [ident, otherIdentity, Bool.and_eq_true, beq_iff_eq,
              eqIgnoreAsciiCase] at same
            obtain ⟨infer, plain, rfl⟩ :=
              windowsIdentityPath_eq_some lib url path ident
            obtain ⟨otherInfer, otherPlain, rfl⟩ :=
              windowsIdentityPath_eq_some lib other otherPath otherIdentity
            refine ⟨url, other, rfl, rfl, infer, otherInfer, plain, otherPlain, same.1, ?_⟩
            rw [← lowercase_intercalate, ← lowercase_intercalate]
            exact (List.cons.inj same.2).2

theorem location_eq_of_eqUri : location lib first = location lib second := by
  rcases eqUri_cases same with same | ⟨url, other, rfl, rfl, infer,
    otherInfer, plain, otherPlain, sameHost, sameNames⟩
  · rw [same]
  · have names := congrArg (fun text => (text.splitOn '/').filter (· ≠ [])) sameNames
    rw [filter_splitOn_intercalate _ (noSlash_of_hasPlainSegments lib _ plain),
      filter_splitOn_intercalate _ (noSlash_of_hasPlainSegments lib _ otherPlain),
      map_map, map_map] at names
    have loc := (location_eq_some_iff lib url _).mpr ⟨.windows, infer,
      fun seg mem => plain seg (mem_of_mem_filter mem), rfl⟩
    have otherLoc := (location_eq_some_iff lib other _).mpr ⟨.windows, otherInfer,
      fun seg mem => otherPlain seg (mem_of_mem_filter mem), rfl⟩
    rw [loc, otherLoc, map_segmentName_nonEmptySegments, map_segmentName_nonEmptySegments, sameHost]
    exact congrArg (fun names => some (Location.mk .windows other.host names)) names

theorem inferPathConvention_eq_of_eqUri :
    inferPathConvention first = inferPathConvention second := by
  rcases eqUri_cases same with same | ⟨_, _, _, _, infer, otherInfer, _⟩
  · rw [same]
  · rw [infer, otherInfer]

theorem isFallback_eq_of_eqUri : isFallback first = isFallback second := by
  rcases eqUri_cases same with same | ⟨_, _, rfl, rfl, _⟩
  · rw [same]
  · rfl

end

theorem nativeSegmentEq_iff (path base : Text) : nativeSegmentEq lib convention path base = true ↔
    segmentName lib convention path = segmentName lib convention base := by
  cases convention with
  | posix => simp [nativeSegmentEq, segmentName]
  | windows =>
    simp only [nativeSegmentEq, segmentName, eqIgnoreAsciiCase, Bool.or_eq_true, beq_iff_eq]
    exact or_iff_right_of_imp (lib.decode_lowercase path base)

theorem nativePathSegmentsStartWith_iff (path base : List Text) :
    nativePathSegmentsStartWith lib convention path base = true ↔
    base.map (segmentName lib convention) <+: path.map (segmentName lib convention) := by
  induction path generalizing base with
  | nil =>
    cases base with
    | _ => simp [nativePathSegmentsStartWith]
  | cons seg path ih =>
    cases base with
    | nil => simp [nativePathSegmentsStartWith]
    | cons first rest =>
      rw [nativePathSegmentsStartWith, Bool.and_eq_true, nativeSegmentEq_iff, ih,
        map_cons, map_cons, cons_prefix_cons]
      exact and_congr_left fun _ => eq_comm

variable {lib} in
theorem startsWith_iff {path base : PathUri} {place : Location}
    (loc : location lib path = some place) : startsWith lib path base = true ↔
    ∃ above, location lib base = some above ∧ place.Within above := by
  cases path with
  | fallback bytes => cases loc
  | file url =>
    obtain ⟨convention, infer, plain, rfl⟩ := (location_eq_some_iff lib url place).mp loc
    unfold startsWith
    rw [Bool.or_eq_true]
    constructor
    · rintro (same | below)
      · rw [← location_eq_of_eqUri lib _ _ same]
        exact ⟨_, loc, Location.Within.refl _⟩
      · cases base with
        | fallback bytes => cases below
        | file baseUrl =>
          simp only [Bool.and_eq_true, beq_iff_eq, infer, Option.getD_some] at below
          obtain ⟨⟨sameHost, sameConv⟩, segs⟩ := below
          split at segs
          next names baseNames isIn baseContained =>
            obtain ⟨_, rfl⟩ :=
              containmentPathSegments_eq_some_iff.mp isIn
            obtain ⟨basePlain, rfl⟩ :=
              containmentPathSegments_eq_some_iff.mp baseContained
            refine ⟨_, (location_eq_some_iff lib baseUrl _).mpr
              ⟨convention, sameConv.symm, basePlain, rfl⟩, rfl, sameHost.symm, ?_⟩
            exact (nativePathSegmentsStartWith_iff lib convention _ _).mp segs
          · cases segs
    · rintro ⟨above, baseLoc, sameConv, sameHost, front⟩
      right
      cases base with
      | fallback bytes => cases baseLoc
      | file baseUrl =>
        obtain ⟨baseConvention, baseInferred, basePlain, rfl⟩ :=
          (location_eq_some_iff lib baseUrl above).mp baseLoc
        cases sameConv
        have isIn :=
          containmentPathSegments_eq_some_iff.mpr ⟨plain, rfl⟩
        have baseContained :=
          containmentPathSegments_eq_some_iff.mpr ⟨basePlain, rfl⟩
        simp only [infer, baseInferred, Option.getD_some, isIn, baseContained,
          Bool.and_eq_true, beq_iff_eq, and_true]
        exact ⟨sameHost.symm, (nativePathSegmentsStartWith_iff lib convention _ _).mpr front⟩

end PathUri

end CodexFormal.Uri
