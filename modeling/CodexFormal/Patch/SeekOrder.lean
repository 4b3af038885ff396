import CodexFormal.Patch.SeekSequence

/-!
# The order of the search for a run of lines

Which match is returned: the first one under the strictest comparison that has any.
The comparisons loosen one another.  A pattern for the end of the file is looked for
at the end only, so that an earlier occurrence is not found.
-/

set_option autoImplicit false

namespace CodexFormal.Patch

open List Option

/-- The second comparison looks at no more than the first. -/
def Loosens (strict loose : Text → Text) : Prop :=
  ∀ line other, strict line = strict other → loose line = loose other

theorem comparisons_loosen : comparisons.Pairwise Loosens := by
  have fromExact : ∀ loose, Loosens id loose := fun loose line other same => congrArg loose same
  have toTrim : Loosens trimEnd trim := by
    intro line other same
    rw [← trim_trimEnd line, same, trim_trimEnd]
  have toNormalise : Loosens trim normalise := fun line other same =>
    congrArg (List.map normaliseChar) same
  have endToNormalise : Loosens trimEnd normalise := fun line other same =>
    toNormalise line other (toTrim line other same)
  unfold comparisons
  simp only [pairwise_cons, forall_mem_cons, not_mem_nil, IsEmpty.forall_iff,
    implies_true, and_true, List.Pairwise.nil]
  exact ⟨⟨fromExact _, fromExact _, fromExact _⟩, ⟨toTrim, endToNormalise⟩, toNormalise⟩

section

variable {strict loose : Text → Text} (loosens : Loosens strict loose) (lines pat : List Text)

include loosens

theorem map_eq_of_loosens (same : lines.map strict = pat.map strict) :
    lines.map loose = pat.map loose := by
  induction lines generalizing pat with
  | nil =>
    rw [map_nil, eq_comm, map_eq_nil_iff] at same
    rw [same]
  | cons line rest ih =>
    cases pat with
    | nil => cases same
    | cons first more =>
      rw [map_cons, map_cons, List.cons.injEq] at same
      rw [map_cons, map_cons, loosens line first same.1, ih more same.2]

theorem matchesAt_of_loosens (index : Nat) (agrees : matchesAt strict lines pat index = true) :
    matchesAt loose lines pat index = true := by
  rw [matchesAt, beq_iff_eq] at agrees ⊢
  exact map_eq_of_loosens loosens _ _ agrees

end

variable {key : Text → Text}

theorem matchesAt_normalise (mem : key ∈ comparisons) {lines pattern : List Text} {index : Nat}
    (agrees : matchesAt key lines pattern index = true) :
    matchesAt normalise lines pattern index = true := by
  have loosen := comparisons_loosen
  have split : comparisons = [id, trimEnd, trim] ++ [normalise] := rfl
  rw [split, pairwise_append] at loosen
  rw [split, mem_append, mem_singleton] at mem
  rcases mem with stricter | isLast
  · exact matchesAt_of_loosens (loosen.2.2 key stricter normalise mem_cons_self) lines pattern
      index agrees
  · exact isLast ▸ agrees

variable {lines pattern : List Text}

theorem matchesAt_inside {index : Nat}
    (nonempty : pattern ≠ []) (agrees : matchesAt key lines pattern index = true) :
    index + pattern.length ≤ lines.length := by
  rw [matchesAt, beq_iff_eq] at agrees
  have lengths := congrArg List.length agrees
  rw [length_map, length_map, length_take, length_drop] at lengths
  have pos := length_pos_of_ne_nil nonempty
  omega

/-- The indices at which the lines are compared with the pattern. -/
def candidates (lines pattern : List Text) (first : Nat) : List Nat :=
  List.range' first (lines.length - pattern.length + 1 - first)

def OccursFrom (key : Text → Text) (lines pattern : List Text) (first : Nat) : Prop :=
  ∃ index, first ≤ index ∧ matchesAt key lines pattern index = true

structure FirstOccurrence (key : Text → Text) (lines pattern : List Text) (first index : Nat) :
    Prop where
  after : first ≤ index
  agrees : matchesAt key lines pattern index = true
  earliest : ∀ other, first ≤ other → other < index → matchesAt key lines pattern other = false

theorem seekWith_first {first index : Nat} (found : seekWith key lines pattern first = some index) :
    FirstOccurrence key lines pattern first index := by
  obtain ⟨after, pre, agrees⟩ := seekWith_spec found
  refine ⟨after, agrees, fun other later earlier => ?_⟩
  obtain ⟨_, pos, isIn, isAt, noneBefore⟩ := find?_eq_some_iff_getElem.mp found
  rw [getElem_range'] at isAt
  have unmatched := noneBefore (other - first) (by omega)
  rw [getElem_range', Bool.not_eq_true'] at unmatched
  have same : first + 1 * (other - first) = other := by omega
  rw [same] at unmatched
  exact unmatched

theorem seekWith_none {first : Nat} (nonempty : pattern ≠ []) :
    seekWith key lines pattern first = none ↔ ¬OccursFrom key lines pattern first := by
  unfold seekWith OccursFrom
  rw [find?_eq_none]
  constructor
  · rintro unmatched ⟨index, after, agrees⟩
    have isIn := matchesAt_inside nonempty agrees
    exact unmatched index (mem_range'_1.mpr ⟨after, by omega⟩) agrees
  · intro gone index mem agrees
    exact gone ⟨index, (mem_range'_1.mp mem).1, agrees⟩

/-- An empty pattern is found where it is looked for, before any start is computed. -/
def searchedFrom (lines pattern : List Text) (start : Nat) (eof : Bool)
    (mode : ApplyPatchFileUpdateMode) : Nat :=
  if pattern.isEmpty then start else searchStart lines pattern start eof mode

structure SeekContract (lines pattern : List Text) (start : Nat) (eof : Bool)
    (mode : ApplyPatchFileUpdateMode) : Prop where
  inBounds : pattern ≠ [] → pattern.length ≤ lines.length →
    ∀ index ∈ candidates lines pattern (searchStart lines pattern start eof mode),
      index + pattern.length ≤ lines.length
  found_iff : (∃ index, seekSequence lines pattern start eof mode = some index) ↔
    OccursFrom normalise lines pattern (searchedFrom lines pattern start eof mode)
  strictest : ∀ index, seekSequence lines pattern start eof mode = some index →
    ∃ stricter key looser, comparisons = stricter ++ key :: looser ∧
      (∀ other ∈ stricter,
        ¬OccursFrom other lines pattern (searchedFrom lines pattern start eof mode)) ∧
      FirstOccurrence key lines pattern (searchedFrom lines pattern start eof mode) index
  loosens : comparisons.Pairwise fun strict loose => ∀ index,
    matchesAt strict lines pattern index = true → matchesAt loose lines pattern index = true
  fallback : eof = true → OccursFrom normalise lines pattern start →
    ∃ index, seekSequence lines pattern start eof mode = some index

def EndsFileIfFound (lines pattern : List Text) (start : Nat) (eof : Bool) : Prop :=
  eof = true → pattern ≠ [] → OccursFrom normalise lines pattern start →
    matchesAt normalise lines pattern (lines.length - pattern.length) = true

theorem matchesAt_nil (key : Text → Text) (lines : List Text) (index : Nat) :
    matchesAt key lines [] index = true := by
  simp [matchesAt]

theorem seekSequence_nil (lines : List Text) (start : Nat) (eof : Bool)
    (mode : ApplyPatchFileUpdateMode) : seekSequence lines [] start eof mode = some start := rfl

section NonemptyPattern

variable {lines pattern : List Text} {start : Nat} {eof : Bool} {mode : ApplyPatchFileUpdateMode}

section

variable (ne : pattern ≠ [])

include ne

theorem searchedFrom_of_ne_nil :
    searchedFrom lines pattern start eof mode = searchStart lines pattern start eof mode :=
  if_neg fun empty => ne (isEmpty_iff.mp empty)

theorem seekSequence_of_fits (fits : pattern.length ≤ lines.length) :
    seekSequence lines pattern start eof mode = comparisons.findSome? fun key =>
    seekWith key lines pattern (searchStart lines pattern start eof mode) := by
  unfold seekSequence
  rw [if_neg fun empty => ne (isEmpty_iff.mp empty), if_neg (Nat.not_lt.mpr fits)]

theorem exists_seekSequence_iff :
    (∃ index, seekSequence lines pattern start eof mode = some index) ↔
    OccursFrom normalise lines pattern (searchStart lines pattern start eof mode) := by
  by_cases fits : pattern.length ≤ lines.length
  · rw [seekSequence_of_fits ne fits]
    constructor
    · rintro ⟨index, found⟩
      obtain ⟨key, mem, loc⟩ := exists_of_findSome?_eq_some found
      obtain ⟨after, _, agrees⟩ := seekWith_spec loc
      exact ⟨index, after, matchesAt_normalise mem agrees⟩
    · intro isAt
      rw [← isSome_iff_exists, isSome_iff_ne_none]
      intro gone
      rw [findSome?_eq_none_iff] at gone
      exact (seekWith_none ne).mp (gone normalise (by simp [comparisons])) isAt
  · constructor
    · rintro ⟨index, found⟩
      rcases seekSequence_spec found with
        ⟨empty, _⟩ | ⟨_, longEnough, _⟩
      · exact absurd empty ne
      · exact absurd longEnough fits
    · rintro ⟨index, _, agrees⟩
      have isIn := matchesAt_inside ne agrees
      omega

theorem seekSequence_strictest {index : Nat}
    (found : seekSequence lines pattern start eof mode = some index) :
    ∃ stricter key looser, comparisons = stricter ++ key :: looser ∧ (∀ other ∈ stricter,
    ¬OccursFrom other lines pattern (searchStart lines pattern start eof mode)) ∧
    FirstOccurrence key lines pattern (searchStart lines pattern start eof mode) index := by
  rcases seekSequence_spec found with
    ⟨empty, _⟩ | ⟨_, fits, _⟩
  · exact absurd empty ne
  · rw [seekSequence_of_fits ne fits, findSome?_eq_some_iff] at found
    obtain ⟨stricter, key, looser, split, loc, unmatched⟩ := found
    exact ⟨stricter, key, looser, split,
      fun other mem => (seekWith_none ne).mp (unmatched other mem),
      seekWith_first loc⟩

theorem occursFrom_searchStart_iff (isEof : eof = true)
    (isAt : OccursFrom normalise lines pattern start) :
    OccursFrom normalise lines pattern (searchStart lines pattern start eof mode) ↔
    matchesAt normalise lines pattern (lines.length - pattern.length) = true := by
  obtain ⟨index, after, agrees⟩ := isAt
  have isIn := matchesAt_inside ne agrees
  have isEnd : searchStart lines pattern start eof mode = lines.length - pattern.length := by
    unfold searchStart
    rw [if_pos isEof]
    cases mode with
    | normalizeToLf => rfl
    | preserveLineEndings => exact Nat.max_eq_left (by omega)
  rw [isEnd]
  constructor
  · rintro ⟨other, late, otherAgrees⟩
    have otherInside := matchesAt_inside ne otherAgrees
    have isLast : other = lines.length - pattern.length := by omega
    exact isLast ▸ otherAgrees
  · intro atEnd
    exact ⟨_, Nat.le_refl _, atEnd⟩

end

end NonemptyPattern

theorem seekContract_nil (lines : List Text) (start : Nat) (eof : Bool)
    (mode : ApplyPatchFileUpdateMode) : SeekContract lines [] start eof mode where
  inBounds := fun nonempty => absurd rfl nonempty
  found_iff := iff_of_true ⟨start, seekSequence_nil lines start eof mode⟩
    ⟨start, Nat.le_refl _, matchesAt_nil _ _ _⟩
  strictest := by
    intro index found
    cases some.inj found
    exact ⟨[], id, [trimEnd, trim, normalise], rfl, fun _ mem => absurd mem not_mem_nil,
      ⟨Nat.le_refl _, matchesAt_nil _ _ _,
      fun other late early => absurd late (Nat.not_le.mpr early)⟩⟩
  loosens := comparisons_loosen.imp fun loosens => matchesAt_of_loosens loosens lines []
  fallback := fun _ _ => ⟨start, seekSequence_nil lines start eof mode⟩

/-- The search keeps all that is documented exactly if a pattern for the end of the file that
occurs at or after the start also occurs at the end. -/
theorem seekContract_iff (lines pattern : List Text) (start : Nat) (eof : Bool)
    (mode : ApplyPatchFileUpdateMode) :
    SeekContract lines pattern start eof mode ↔ EndsFileIfFound lines pattern start eof := by
  by_cases empty : pattern = []
  · subst empty
    exact iff_of_true (seekContract_nil lines start eof mode) fun _ nonempty => absurd rfl nonempty
  · constructor
    · intro contract isEof _ occurs
      have found := contract.fallback isEof occurs
      rw [exists_seekSequence_iff empty] at found
      exact (occursFrom_searchStart_iff empty isEof occurs).mp found
    · intro endsFile
      exact
        { inBounds := by
            intro _ fits index mem
            have inRange := mem_range'_1.mp mem
            omega
          found_iff := by
            rw [searchedFrom_of_ne_nil empty]
            exact exists_seekSequence_iff empty
          strictest := by
            rw [searchedFrom_of_ne_nil empty]
            exact fun index found => seekSequence_strictest empty found
          loosens := comparisons_loosen.imp fun loosens =>
            matchesAt_of_loosens loosens lines pattern
          fallback := by
            intro isEof occurs
            rw [exists_seekSequence_iff empty]
            exact (occursFrom_searchStart_iff empty isEof occurs).mpr
              (endsFile isEof empty occurs) }

/-- A line before the last one is not found for the end of the file. -/
theorem earlier_line_not_found_at_end :
    ¬SeekContract [['a'], ['b']] [['a']] 0 true .normalizeToLf := by
  intro contract
  obtain ⟨index, found⟩ := contract.fallback rfl ⟨0, Nat.le_refl _, by decide⟩
  have absent : seekSequence [['a'], ['b']] [['a']] 0 true .normalizeToLf = none := by decide
  rw [absent] at found
  cases found

end CodexFormal.Patch
