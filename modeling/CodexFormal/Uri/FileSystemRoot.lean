import CodexFormal.Uri.AbsolutePath

/-!
# The file system root of a path

The ancestors of a path end at its anchor: at `/`, at a drive or at a share.
-/

set_option autoImplicit false

namespace CodexFormal.Uri

open List Option

open Patch (Text)

/-- The root of the file system that a place belongs to. -/
def Location.root (place : Location) : Location :=
  { place with names := place.names.take place.convention.anchorDepth }

theorem Location.within_root (place : Location) : place.Within place.root :=
  ⟨rfl, rfl, take_prefix _ _⟩

namespace FileUrl

variable (segs : List Text)

theorem length_pop_popIfEmpty (long : 2 ≤ segs.length) :
    (pop (popIfEmpty segs)).length < segs.length := by
  have popLength : ∀ kept : List Text, (pop kept).length ≤ max 1 (kept.length - 1) := by
    intro kept
    unfold pop
    split
    · exact Nat.le_max_left 1 _
    · rw [length_dropLast]
      omega
  have popped := popLength (popIfEmpty segs)
  unfold popIfEmpty at popped ⊢
  split at popped
  next trailing =>
    rw [if_pos trailing]
    rw [length_dropLast] at popped
    omega
  next kept =>
    rw [if_neg kept]
    omega

theorem names_pop_of_length_le_one (short : segs.length ≤ 1) :
    names (pop (popIfEmpty segs)) = [] := by
  match segs, short with
  | [], _ => rfl
  | [seg], _ =>
    have kept : popIfEmpty [seg] = [seg] := if_neg (by simp)
    rw [kept]
    rfl

theorem find?_eq_head?_names : segs.find? (· ≠ []) = (names segs).head? := by
  rw [names, head?_filter]

end FileUrl

namespace PathUri

variable (lib : UrlLibrary) (url : FileUrl) (convention : PathConvention)

variable {url convention} in
theorem parent_eq_none_iff (infer : inferPathConvention (file url) = some convention) :
    parent (file url) = none ↔ url.nonEmptySegments.length ≤ convention.anchorDepth := by
  simp only [parent, infer, bind_some]
  split
  next short =>
    exact iff_of_true rfl short
  next long =>
    exact iff_of_false (by simp) long

open FileUrl

theorem inferPathConvention_congr {host : Option Text} {first second : List Text}
    (same : (names first).head? = (names second).head?) :
    inferPathConvention (file ⟨host, first⟩) = inferPathConvention (file ⟨host, second⟩) := by
  simp only [inferPathConvention, find?_eq_head?_names, same]

theorem inferPathConvention_of_unnamed (segments : List Text) (unnamed : names segments = []) :
    inferPathConvention (file ⟨none, segments⟩) = some .posix := by
  simp only [inferPathConvention, find?_eq_head?_names, unnamed, head?_nil]
  rfl

variable {url convention} in
theorem parent_step (infer : inferPathConvention (file url) = some convention)
    (long : convention.anchorDepth < url.nonEmptySegments.length) :
    let above := pop (popIfEmpty url.segments)
    inferPathConvention (file ⟨url.host, above⟩) = some convention ∧
      (names above).take convention.anchorDepth =
        url.nonEmptySegments.take convention.anchorDepth := by
  intro above
  have step : names above = url.nonEmptySegments ∨ names above = url.nonEmptySegments.dropLast := by
    have popped := names_pop (popIfEmpty url.segments)
    rw [names_popIfEmpty] at popped
    exact popped
  have isUrl : inferPathConvention (file ⟨url.host, url.segments⟩) = some convention := infer
  rcases step with same | short
  · refine ⟨?_, by rw [same]⟩
    rw [← isUrl]
    exact inferPathConvention_congr (congrArg List.head? same)
  · refine ⟨?_, ?_⟩
    · cases host : url.host with
      | some name =>
        rw [host] at isUrl
        rw [← isUrl]
        rfl
      | none =>
        rw [host] at isUrl
        by_cases single : url.nonEmptySegments.length = 1
        · -- the only name of a POSIX path is dropped
          have noName : names above = [] := by
            rw [short, ← length_eq_zero_iff, length_dropLast, single]
          rw [inferPathConvention_of_unnamed above noName]
          cases convention with
          | posix => rfl
          | windows =>
            rw [single] at long
            exact absurd long (by decide)
        · rw [← isUrl]
          refine inferPathConvention_congr ?_
          have sameNames : names url.segments = url.nonEmptySegments := rfl
          rw [short, sameNames]
          cases named : url.nonEmptySegments with
          | nil => rfl
          | cons first rest =>
            cases rest with
            | nil =>
              rw [named] at single
              exact absurd rfl single
            | cons second rest => rfl
    · rw [short, dropLast_eq_take, take_take, Nat.min_eq_left (by omega)]

theorem lastAncestor_names (fuel : Nat) (url : FileUrl) (convention : PathConvention)
    (infer : inferPathConvention (file url) = some convention)
    (enough : url.segments.length ≤ fuel ∨ url.nonEmptySegments.length ≤ convention.anchorDepth) :
    ∃ segments, lastAncestor fuel (file url) = file ⟨url.host, segments⟩ ∧
    inferPathConvention (file ⟨url.host, segments⟩) = some convention ∧
    names segments = url.nonEmptySegments.take convention.anchorDepth := by
  have atAnchor : url.nonEmptySegments.length ≤ convention.anchorDepth →
      names url.segments = url.nonEmptySegments.take convention.anchorDepth :=
    fun short => (take_of_length_le short).symm
  induction fuel generalizing url with
  | zero =>
    refine ⟨url.segments, rfl, infer, atAnchor ?_⟩
    rcases enough with empty | short
    · have fewer : url.nonEmptySegments.length ≤ url.segments.length := length_filter_le _ _
      omega
    · exact short
  | succ fuel ih =>
    rw [lastAncestor]
    by_cases short : url.nonEmptySegments.length ≤ convention.anchorDepth
    · rw [(parent_eq_none_iff infer).mpr short]
      exact ⟨url.segments, rfl, infer, atAnchor short⟩
    · have long := Nat.lt_of_not_le short
      obtain ⟨stillInferred, sameAnchor⟩ := parent_step infer long
      have above : parent (file url) =
          some (file { url with segments := pop (popIfEmpty url.segments) }) := by
        simp only [parent, infer, bind_some, if_neg short]
      rw [above]
      dsimp only
      obtain ⟨segments, got, reachedInferred, reachedNames⟩ :=
        ih { url with segments := pop (popIfEmpty url.segments) } stillInferred (by
            have bound := enough.resolve_right short
            by_cases several : 2 ≤ url.segments.length
            · have shorter := length_pop_popIfEmpty url.segments several
              left
              change (pop (popIfEmpty url.segments)).length ≤ fuel
              omega
            · right
              have unnamed :=
                names_pop_of_length_le_one url.segments (by omega)
              change (names _).length ≤ _
              rw [unnamed]
              exact Nat.zero_le _)
          (fun short => (take_of_length_le short).symm)
      exact ⟨segments, got, reachedInferred, reachedNames.trans sameAnchor⟩

variable (uri : PathUri) (place : Location)

variable {lib uri place} in
theorem location_rootAncestor (loc : location lib uri = some place) :
    location lib (rootAncestor uri) = some place.root := by
  cases uri with
  | fallback bytes => cases loc
  | file url =>
    obtain ⟨convention, infer, plain, rfl⟩ := (location_eq_some_iff lib url place).mp loc
    obtain ⟨segments, got, reachedInferred, reachedNames⟩ :=
      lastAncestor_names (url.segments.length + 1) url convention infer (.inl (Nat.le_succ _))
    have names : nonEmptySegments ⟨url.host, segments⟩ =
      url.nonEmptySegments.take convention.anchorDepth := reachedNames
    rw [rootAncestor, got]
    refine (location_eq_some_iff lib _ _).mpr ⟨convention, reachedInferred, ?_, ?_⟩
    · rw [names]
      exact fun seg mem => plain seg (mem_of_mem_take mem)
    · rw [names, map_take]
      rfl

theorem depth_le_of_parent (loc : location lib uri = some place) (top : parent uri = none) :
    place.depth ≤ place.convention.anchorDepth := by
  cases uri with
  | fallback bytes => cases loc
  | file url =>
    obtain ⟨convention, infer, _, rfl⟩ := (location_eq_some_iff lib url place).mp loc
    rw [Location.depth, length_map]
    exact (parent_eq_none_iff infer).mp top

variable {lib uri place} in
theorem root_of_posix (loc : location lib uri = some place) (posix : place.convention = .posix) :
    place.root = ⟨.posix, none, []⟩ := by
  cases uri with
  | fallback bytes => cases loc
  | file url =>
    obtain ⟨convention, infer, _, rfl⟩ := (location_eq_some_iff lib url place).mp loc
    dsimp only at posix
    subst posix
    rw [Location.root, host_of_posix url infer]
    rfl

def slashTmp : FileUrl := ⟨none, [lib.encodeSegment "tmp".toList]⟩

theorem slashTmp_named : lib.encodeSegment "tmp".toList ≠ [] := by
  intro empty
  have read := lib.decode_encode "tmp".toList
  rw [(lib.decode_eq_nil _).mpr empty] at read
  exact absurd read (by decide)

theorem slashTmp_noDrive : isWindowsDriveUriSegment (lib.encodeSegment "tmp".toList) = false := by
  rw [Bool.eq_false_iff]
  intro isDrive
  obtain ⟨drive, text⟩ := lib.drive_of_encode _ isDrive
  cases text

theorem inferPathConvention_slashTmp : inferPathConvention (file (slashTmp lib)) = some .posix := by
  have found : (slashTmp lib).segments.find? (· ≠ []) = some (lib.encodeSegment "tmp".toList) :=
    find?_cons_of_pos (decide_eq_true (slashTmp_named lib))
  simp only [inferPathConvention, found, slashTmp_noDrive]
  rfl

theorem location_slashTmp :
    location lib (file (slashTmp lib)) = some ⟨.posix, none, ["tmp".toList]⟩ := by
  have names : (slashTmp lib).nonEmptySegments = [lib.encodeSegment "tmp".toList] := by
    refine filter_eq_self.mpr fun seg mem => ?_
    rw [mem_singleton.mp mem]
    exact decide_eq_true (slashTmp_named lib)
  refine (location_eq_some_iff lib _ _).mpr ⟨.posix, inferPathConvention_slashTmp lib, ?_, ?_⟩
  · intro seg mem c isIn
    rw [names, mem_singleton] at mem
    rw [mem, lib.decode_encode] at isIn
    have all : ("tmp".toList.all fun c => PathConvention.posix.isSeparator c == false) = true := by
      decide
    exact beq_iff_eq.mp (all_eq_true.mp all c isIn)
  · rw [names, map_singleton, segmentName, lib.decode_encode]
    rfl

theorem tryFrom_slashTmp : tryFrom lib (slashTmp lib) = .ok (file (slashTmp lib)) := by
  have noNull : ¬ ((slashTmp lib).segments.any fun seg =>
      (lib.decodeSegment seg).contains '\x00') = true := by
    rw [slashTmp, any_cons, lib.decode_encode, any_nil]
    decide
  have drive : upperDrive [lib.encodeSegment "tmp".toList] = [lib.encodeSegment "tmp".toList] := by
    cases seg : lib.encodeSegment "tmp".toList with
    | nil => exact absurd seg (slashTmp_named lib)
    | cons c rest =>
      have noDrive := slashTmp_noDrive lib
      rw [seg] at noDrive
      rw [upperDrive, noDrive]
      · rfl
      · exact cons_ne_nil c rest
  have plain : (slashTmp lib).withoutLocalhostAuthority = slashTmp lib :=
    if_neg (by simp [slashTmp])
  rw [tryFrom, if_neg noNull, plain, withNormalizedWindowsDriveLetter]
  simp only [slashTmp, drive]
  rfl

theorem join_slashTmp (base : PathUri) (posix : inferPathConvention base = some .posix) :
    join lib base "/tmp".toList = .ok (file (slashTmp lib)) := by
  have parsed : parsePosixPath lib "/tmp".toList = some (file (slashTmp lib)) := by
    have isOk : pathUriFromSegments lib .posix none
        (PathConvention.posix.pathSegments "tmp".toList) = some (file (slashTmp lib)) := by
      have made : (tryFrom lib (slashTmp lib)).toOption = some (file (slashTmp lib)) := by
        rw [tryFrom_slashTmp]
        rfl
      exact made
    exact isOk
  have abs : fromAbsoluteNativePath lib "/tmp".toList .posix = some (file (slashTmp lib)) := by
    rw [fromAbsoluteNativePath, parseNativePath, parsed, map_some, inferPathConvention_slashTmp]
    rfl
  have noNull : ("/tmp".toList.contains '\x00') = false := by decide
  simp only [join, noNull, posix, abs]
  rfl

end PathUri

end CodexFormal.Uri
