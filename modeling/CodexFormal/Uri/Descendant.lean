import CodexFormal.Uri.Join

/-!
# Named children of a path

Joining one plain name to a located path URI leads to the location below it
with that name.
-/

set_option autoImplicit false

namespace CodexFormal.Uri

open List FileUrl PathConvention

open Patch (Text)

namespace Location

variable (place : Location)

/-- The place with this name directly below. -/
def child (name : Text) : Location :=
  { place with names := place.names ++ [name] }

theorem child_within (name : Text) : (place.child name).Within place :=
  ⟨rfl, rfl, prefix_append ..⟩

theorem depth_child (name : Text) : (place.child name).depth = place.depth + 1 := by
  simp [child, depth]

end Location

namespace PathUri

variable (lib : UrlLibrary)

/-- A path URI of the source: its URL is validated and normalized. -/
def IsValid : PathUri → Prop
  | file url => IsPathUrl lib url
  | fallback _ => True

instance (uri : PathUri) : Decidable (IsValid lib uri) :=
  match uri with
  | file url => inferInstanceAs (Decidable (tryFrom lib url = .ok (file url)))
  | fallback _ => inferInstanceAs (Decidable True)

/-- A component that names an entry of a directory in either convention, in lower case. -/
structure IsPlainName (name : Text) : Prop where
  notDots : name ≠ [] ∧ name ≠ ['.'] ∧ name ≠ ['.', '.']
  plain : ∀ c ∈ name, c ≠ '/' ∧ c ≠ '\\' ∧ c ≠ ':' ∧ c ≠ '\x00'
  lower : lowercase name = name

namespace IsPlainName

variable {name : Text} (isPlain : IsPlainName name)

include isPlain

variable (conv : PathConvention)

theorem not_separator : ∀ c ∈ name, conv.isSeparator c = false := by
  intro c mem
  obtain ⟨notSlash, notBackslash, _⟩ := isPlain.plain c mem
  cases conv with
  | posix => simpa [isSeparator] using notSlash
  | windows =>
    simpa [isSeparator, isWindowsSeparator] using ⟨notBackslash, notSlash⟩

theorem pathSegments : conv.pathSegments name = [name] :=
  splitOnP_eq_singleton (isPlain.not_separator conv)

theorem noNull : name.contains '\x00' = false := by
  rw [contains_eq_mem, decide_eq_false_iff_not]
  intro null
  exact (isPlain.plain _ null).2.2.2 rfl

theorem notDriveRelative : isWindowsDriveRelative name = false := by
  unfold isWindowsDriveRelative
  split
  · exact absurd rfl (isPlain.plain ':' (by simp)).2.2.1
  · rfl

theorem relative : isRelativeText conv name = true := by
  have separator := isPlain.not_separator conv
  cases conv with
  | posix =>
    simp only [isRelativeText, decide_eq_true_eq]
    intro slash
    have noSlash := separator '/' (mem_of_mem_head? slash)
    cases noSlash
  | windows =>
    have notDrive : isWindowsDriveAbsolutePath name = false := by
      unfold isWindowsDriveAbsolutePath
      split
      · exact absurd rfl (isPlain.plain ':' (by simp)).2.2.1
      · rfl
    simp only [isRelativeText, notDrive, Bool.not_false, Bool.true_and]
    split
    · have first := separator _ (mem_cons_self ..)
      simp only [isSeparator] at first
      rw [first]
      rfl
    · rfl

theorem notRootRelative : isWindowsRootRelative name = false := by
  have separator := isPlain.not_separator .windows
  unfold isWindowsRootRelative
  split
  · rfl
  · exact separator _ (mem_singleton_self _)
  · have first := separator _ (mem_cons_self ..)
    simp only [isSeparator] at first
    rw [first]
    rfl

theorem notDriveSegment (lib : UrlLibrary) :
    isWindowsDriveUriSegment (lib.encodeSegment name) = false := by
  by_contra drive
  obtain ⟨letter, rfl⟩ := lib.drive_of_encode name (by simpa using drive)
  exact (isPlain.plain ':' (by simp)).2.2.1 rfl

theorem namesNoRoot : namesOwnRoot conv name = false := by
  have noHead : ∀ c, c = '/' ∨ c = '\\' → (name.head? == some c) = false := by
    intro c isSeparator
    rw [beq_eq_false_iff_ne]
    intro head
    obtain ⟨notSlash, notBackslash, _⟩ := isPlain.plain c (mem_of_mem_head? head)
    rcases isSeparator with rfl | rfl
    · exact notSlash rfl
    · exact notBackslash rfl
  have noColon : (windows.pathSegments name).any (fun seg => seg.contains ':') = false := by
    rw [isPlain.pathSegments .windows, any_cons, any_nil, Bool.or_false,
      contains_eq_mem, decide_eq_false_iff_not]
    intro colon
    exact (isPlain.plain _ colon).2.2.1 rfl
  rw [namesOwnRoot, noHead '/' (.inl rfl), noHead '\\' (.inr rfl), noColon]
  simp

end IsPlainName

theorem joinedSegments_name (url : FileUrl) (convention : PathConvention) (name : Text)
    (isPlain : IsPlainName name) : joinedSegments lib url convention name =
    FileUrl.push (FileUrl.popIfEmpty url.segments) (lib.encodeSegment name) := by
  obtain ⟨ne, notDot, notDots⟩ := isPlain.notDots
  unfold joinedSegments
  simp only [isPlain.pathSegments convention, isPlain.notRootRelative, Bool.false_eq_true,
    and_false, if_false, foldl_cons, foldl_nil, joinComponent, ne, notDot, notDots,
    or_self]

theorem mem_push_popIfEmpty (segs : List Text) (segment other : Text)
    (mem : other ∈ FileUrl.push (FileUrl.popIfEmpty segs) segment) :
    other ∈ segs ∨ other = segment := by
  unfold FileUrl.push at mem
  split at mem
  · exact .inr (mem_singleton.mp mem)
  · rcases mem_append.mp mem with mem | mem
    · left
      unfold FileUrl.popIfEmpty at mem
      split at mem
      · exact dropLast_subset segs mem
      · exact mem
    · exact .inr (mem_singleton.mp mem)

theorem IsPathUrl.noNull {lib : UrlLibrary} {url : FileUrl} (valid : IsPathUrl lib url) :
    ∀ segment ∈ url.segments, '\x00' ∉ lib.decodeSegment segment := by
  unfold IsPathUrl tryFrom at valid
  split at valid
  · cases valid
  next isOk =>
    simpa using isOk

theorem find?_push_popIfEmpty (segs : List Text) (seg : Text) (named : seg ≠ []) :
    (FileUrl.push (FileUrl.popIfEmpty segs) seg).find? (· ≠ []) =
    ((segs.find? (· ≠ [])).or (some seg)) := by
  have names := names_push (FileUrl.popIfEmpty segs) named
  rw [names_popIfEmpty] at names
  rw [← head?_filter, ← head?_filter]
  exact (congrArg List.head? names).trans (by simp [FileUrl.names])

theorem notDrive_of_posix (url : FileUrl) (seg : Text)
    (posix : inferPathConvention (file url) = some .posix)
    (first : url.segments.find? (· ≠ []) = some seg) : isWindowsDriveUriSegment seg = false := by
  unfold inferPathConvention at posix
  dsimp only at posix
  split at posix
  · cases posix
  · rw [first] at posix
    by_contra drive
    simp [drive] at posix

theorem segmentName_encodeSegment (convention : PathConvention) (name : Text)
    (lower : lowercase name = name) :
    segmentName lib convention (lib.encodeSegment name) = name := by
  cases convention with
  | posix => exact lib.decode_encode name
  | windows => rw [segmentName, lib.decode_encode, lower]

variable {lib} in
theorem joinDescendant_name {root : PathUri} {name : Text} {place : Location}
    (isPlain : IsPlainName name) (valid : IsValid lib root) (loc : location lib root = some place) :
    ∃ descendant, joinDescendant lib root name = .ok descendant ∧ IsValid lib descendant ∧
    location lib descendant = some (place.child name) := by
  cases root with
  | fallback bytes => cases loc
  | file url =>
    obtain ⟨convention, infer, plain, rfl⟩ := (location_eq_some_iff lib url place).mp loc
    have encodedNamed : lib.encodeSegment name ≠ [] := by
      rw [ne_eq, encodeSegment_eq_nil]
      exact isPlain.notDots.1
    have segments := joinedSegments_name lib url convention name isPlain
    have fixed := joinedSegments_anchored lib url convention name
    have notDrive : convention = .posix → ∀ first,
        (joinedSegments lib url convention name).find? (· ≠ []) = some first →
        isWindowsDriveUriSegment first = false := by
      rintro rfl first found
      rw [segments, find?_push_popIfEmpty _ _ encodedNamed] at found
      cases start : url.segments.find? (· ≠ []) with
      | none =>
        rw [start, Option.none_or, Option.some.injEq] at found
        rw [← found]
        exact isPlain.notDriveSegment lib
      | some seg =>
        rw [start, Option.some_or, Option.some.injEq] at found
        rw [← found]
        exact notDrive_of_posix url seg infer start
    obtain ⟨norm, joinedInferred⟩ :=
      joined_normalized valid infer fixed notDrive
    have isOk : tryFrom lib ⟨url.host, joinedSegments lib url convention name⟩ =
        .ok (file ⟨url.host, joinedSegments lib url convention name⟩) := by
      rw [tryFrom, if_neg, norm]
      rw [any_eq_true]
      rintro ⟨seg, mem, null⟩
      rw [contains_iff_mem] at null
      rw [segments] at mem
      rcases mem_push_popIfEmpty _ _ _ mem with mem | rfl
      · exact valid.noNull seg mem null
      · rw [lib.decode_encode] at null
        exact (isPlain.plain _ null).2.2.2 rfl
    have joins : join lib (file url) name =
        .ok (file ⟨url.host, joinedSegments lib url convention name⟩) := by
      rw [join_relative lib infer isPlain.notDots.1 isPlain.noNull (isPlain.relative convention),
        withoutOwnDrive_of_not_drive _ _ _ isPlain.notDriveRelative]
      exact isOk
    have joinedLocated : location lib (file ⟨url.host, joinedSegments lib url convention name⟩) =
        some (Location.child ⟨convention, url.host,
          url.nonEmptySegments.map (segmentName lib convention)⟩ name) := by
      have names : nonEmptySegments ⟨url.host, joinedSegments lib url convention name⟩ =
          url.nonEmptySegments ++ [lib.encodeSegment name] := by
        have pushed := names_push (FileUrl.popIfEmpty url.segments) encodedNamed
        rw [names_popIfEmpty, ← segments] at pushed
        exact pushed
      refine (location_eq_some_iff lib _ _).mpr ⟨convention, joinedInferred, ?_, ?_⟩
      · rw [names]
        intro seg mem
        rcases mem_append.mp mem with mem | mem
        · exact plain seg mem
        · rw [mem_singleton.mp mem, lib.decode_encode]
          exact isPlain.not_separator convention
      · rw [names, map_append, map_singleton,
          segmentName_encodeSegment lib convention name isPlain.lower]
        rfl
    refine ⟨file ⟨url.host, joinedSegments lib url convention name⟩, ?_, isOk, joinedLocated⟩
    have below := (startsWith_iff joinedLocated).mpr ⟨_, loc, Location.child_within _ name⟩
    simp only [joinDescendant, joins, Except.bind, infer, Option.getD_some,
      isPlain.namesNoRoot convention, below, Bool.not_true, Bool.or_self, Bool.false_eq_true,
      if_false]

end PathUri

end CodexFormal.Uri
