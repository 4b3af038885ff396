import CodexFormal.Patch.FileUpdate

/-!
# Where chunks are placed

Each located chunk lies within the file.  As long as no chunk is found before the
cursor its search started from, the located chunks follow each other in patch
order without overlap, and sorting their replacements by start keeps them apart.
-/

set_option autoImplicit false

namespace CodexFormal.Patch

open Foundation List

namespace Placement

def startIndex : Placement → Nat
  | insertion index _ => index
  | region _ located => located.startIndex

def stop : Placement → Nat
  | insertion index _ => index
  | region _ located => located.startIndex + located.pattern.length

/-- A located chunk is not found before the cursor. -/
def Forward : Placement → Prop
  | insertion _ _ => True
  | region _ located => located.lineIndex ≤ located.startIndex

def IsRegion : Placement → Prop
  | insertion _ _ => False
  | region _ _ => True

/-- Of two located chunks the first one ends before the second one starts. -/
def RegionBefore (first second : Placement) : Prop :=
  first.IsRegion → second.IsRegion → first.stop ≤ second.startIndex

end Placement

section Locate

variable (mode : ApplyPatchFileUpdateMode) (originalLines : List Text)

variable {mode originalLines} in
/-- A pattern that is sought lies within the file; it is found before the cursor
only at the end of the file and in the mode that normalises. -/
theorem seekSequence_bounds {pat : List Text} {lineIndex start : Nat} {eof : Bool}
    (found : seekSequence originalLines pat lineIndex eof mode = some start) :
    (lineIndex ≤ originalLines.length → start + pat.length ≤ originalLines.length) ∧
    (mode = .preserveLineEndings ∨ eof = false → lineIndex ≤ start) := by
  rcases seekSequence_spec found with ⟨rfl, rfl⟩ | ⟨-, -, after, pre, -⟩
  · exact ⟨fun bound => bound, fun _ => le_rfl⟩
  · refine ⟨fun _ => pre, fun forward => le_trans ?_ after⟩
    unfold searchStart
    rcases forward with rfl | rfl
    · split
      · exact le_max_right _ _
      · exact le_rfl
    · exact le_rfl

variable (path : Text) (chunk : UpdateFileChunk)

variable {mode originalLines path chunk} in
theorem seekContext_spec {lineIndex mid : Nat}
    (found : seekContext mode originalLines path chunk lineIndex = .ok mid) :
    lineIndex ≤ mid ∧ (lineIndex ≤ originalLines.length → mid ≤ originalLines.length) := by
  unfold seekContext at found
  split at found
  · cases found
    exact ⟨le_rfl, id⟩
  · split at found
    next index sought =>
      cases found
      obtain ⟨bound, forward⟩ := seekSequence_bounds sought
      exact ⟨(forward (.inr rfl)).trans (Nat.le_succ _), bound⟩
    · cases found

/-- The old and new lines of a located chunk are those of the chunk, or those
without the empty line at the end. -/
def LocatedFor (chunk : UpdateFileChunk) (located : Located) : Prop :=
  (located.pattern = chunk.oldLines ∧ located.newSlice = chunk.newLines) ∨
    (chunk.oldLines = located.pattern ++ [[]] ∧
      located.newSlice = dropTrailingEmpty chunk.newLines)

variable (lineIndex : Nat)

variable {mode originalLines chunk lineIndex} in
theorem locateOldLines_spec {loc : Located}
    (found : locateOldLines mode originalLines chunk lineIndex = some loc) :
    loc.lineIndex = lineIndex ∧ LocatedFor chunk loc ∧ (lineIndex ≤ originalLines.length →
    loc.startIndex + loc.pattern.length ≤ originalLines.length) ∧
    (mode = .preserveLineEndings ∨ chunk.isEndOfFile = false → lineIndex ≤ loc.startIndex) := by
  unfold locateOldLines at found
  split at found
  next start sought =>
    cases found
    obtain ⟨bound, forward⟩ := seekSequence_bounds sought
    exact ⟨rfl, .inl ⟨rfl, rfl⟩, bound, forward⟩
  · split at found
    next trailing =>
      obtain ⟨start, sought, rfl⟩ := Option.map_eq_some_iff.mp found
      obtain ⟨bound, forward⟩ := seekSequence_bounds sought
      exact ⟨rfl, .inr ⟨(dropLast_append_getLast? _ trailing).symm, rfl⟩, bound, forward⟩
    · cases found

variable {mode originalLines path chunk} in
theorem placeChunks_cons_inv
    {rest : List UpdateFileChunk} {lineIndex : Nat} {placements : List Placement}
    (placed : placeChunks mode originalLines path (chunk :: rest) lineIndex = .ok placements) :
    ∃ mid, seekContext mode originalLines path chunk lineIndex = .ok mid ∧
    ((chunk.oldLines = [] ∧ ∃ later, placeChunks mode originalLines path rest mid = .ok later ∧
    placements = .insertion (insertionIndex mode originalLines) chunk.newLines :: later) ∨
    (∃ loc later, locateOldLines mode originalLines chunk mid = some loc ∧
    placeChunks mode originalLines path rest (loc.startIndex + loc.pattern.length) = .ok later ∧
    placements = .region chunk loc :: later)) := by
  simp only [placeChunks] at placed
  split at placed
  · cases placed
  next mid sought =>
    refine ⟨mid, sought, ?_⟩
    split at placed
    next noOld =>
      cases later : placeChunks mode originalLines path rest mid with
      | error error =>
        rw [later] at placed
        cases placed
      | ok more =>
        rw [later] at placed
        cases placed
        exact .inl ⟨isEmpty_iff.mp noOld, more, rfl, rfl⟩
    · split at placed
      · cases placed
      next loc found =>
        cases later : placeChunks mode originalLines path rest
          (loc.startIndex + loc.pattern.length) with
        | error error =>
          rw [later] at placed
          cases placed
        | ok more =>
          rw [later] at placed
          cases placed
          exact .inr ⟨loc, more, found, later, rfl⟩

/-- The placement of a chunk: without old lines at the insertion point, otherwise
where its old lines lie in the file. -/
def PlacesChunk (chunk : UpdateFileChunk) (placement : Placement) : Prop :=
  match placement with
  | .insertion index newLines =>
    chunk.oldLines = [] ∧ newLines = chunk.newLines ∧
      index = insertionIndex mode originalLines
  | .region placed located =>
    placed = chunk ∧ LocatedFor chunk located ∧
      located.startIndex + located.pattern.length ≤ originalLines.length ∧
      (mode = .preserveLineEndings ∨ chunk.isEndOfFile = false →
        located.lineIndex ≤ located.startIndex)

variable (chunks : List UpdateFileChunk)

theorem placeChunks_places (lineIndex : Nat)
    (placements : List Placement) (bound : lineIndex ≤ originalLines.length)
    (placed : placeChunks mode originalLines path chunks lineIndex = .ok placements) :
    List.Forall₂ (PlacesChunk mode originalLines) chunks placements := by
  induction chunks generalizing lineIndex placements with
  | nil =>
    cases placed
    exact .nil
  | cons chunk rest ih =>
    obtain ⟨mid, sought, step⟩ :=
      placeChunks_cons_inv placed
    have middleBound := (seekContext_spec sought).2 bound
    rcases step with ⟨noOld, more, run, rfl⟩ | ⟨loc, more, found, run, rfl⟩
    · exact .cons ⟨noOld, rfl, rfl⟩ (ih mid more middleBound run)
    · obtain ⟨isCursor, isFor, within, forward⟩ :=
        locateOldLines_spec found
      refine .cons ⟨rfl, isFor, within middleBound, ?_⟩ (ih _ more (within middleBound) run)
      rw [isCursor]
      exact forward

theorem insertionIndex_le : insertionIndex mode originalLines ≤ originalLines.length := by
  unfold insertionIndex
  split
  · split
    · exact Nat.sub_le _ _
    · exact le_rfl
  · exact le_rfl

theorem exists_placesChunk (placements : List Placement)
    (places : List.Forall₂ (PlacesChunk mode originalLines) chunks placements) :
    ∀ placement ∈ placements, ∃ chunk ∈ chunks, PlacesChunk mode originalLines chunk placement := by
  induction places with
  | nil => exact fun placement none => by cases none
  | @cons chunk first rest more here later ih =>
    refine forall_mem_cons.mpr ⟨⟨chunk, by simp, here⟩, fun placement mem => ?_⟩
    obtain ⟨other, isOther, isPlaced⟩ := ih placement mem
    exact ⟨other, mem_cons_of_mem chunk isOther, isPlaced⟩

section Places

variable {mode originalLines} {chunks : List UpdateFileChunk} {placements : List Placement}
  (places : List.Forall₂ (PlacesChunk mode originalLines) chunks placements)

include places

theorem insertion_index (index : Nat) (newLines : List Text)
    (mem : .insertion index newLines ∈ placements) : index = insertionIndex mode originalLines := by
  obtain ⟨_, _, -, -, isIndex⟩ := exists_placesChunk _ _ chunks placements places _ mem
  exact isIndex

theorem placements_stop_le : ∀ place ∈ placements, place.stop ≤ originalLines.length := by
  intro place mem
  cases place with
  | insertion index newLines =>
    exact (insertion_index places index newLines mem).trans_le (insertionIndex_le _ _)
  | region chunk loc =>
    obtain ⟨_, _, -, -, within, -⟩ := exists_placesChunk _ _ chunks placements places _ mem
    exact within

theorem placements_forward (atEnd : mode = .preserveLineEndings ∨ ∀ chunk loc,
    .region chunk loc ∈ placements → chunk.isEndOfFile = true →
    loc.lineIndex ≤ loc.startIndex) : ∀ place ∈ placements, place.Forward := by
  intro place mem
  cases place with
  | insertion index newLines => trivial
  | region chunk loc =>
    obtain ⟨_, _, rfl, -, -, unlessEnd⟩ :=
      exists_placesChunk _ _ chunks placements places _ mem
    rcases atEnd with preserves | forward
    · exact unlessEnd (.inl preserves)
    · cases isEnd : chunk.isEndOfFile with
      | true => exact forward chunk loc mem isEnd
      | false => exact unlessEnd (.inr isEnd)

end Places

/-- Where no chunk is found before its cursor, the located chunks come one after
the other. -/
theorem placeChunks_ordered (lineIndex : Nat) (placements : List Placement)
    (placed : placeChunks mode originalLines path chunks lineIndex = .ok placements)
    (forward : ∀ place ∈ placements, place.Forward) : placements.Pairwise Placement.RegionBefore ∧
    ∀ place ∈ placements, place.IsRegion → lineIndex ≤ place.startIndex := by
  induction chunks generalizing lineIndex placements with
  | nil =>
    cases placed
    exact ⟨List.Pairwise.nil, fun place none => by cases none⟩
  | cons chunk rest ih =>
    obtain ⟨mid, sought, step⟩ :=
      placeChunks_cons_inv placed
    have advances := (seekContext_spec sought).1
    rcases step with ⟨noOld, more, run, rfl⟩ | ⟨loc, more, found, run, rfl⟩
    · obtain ⟨-, laterForward⟩ := forall_mem_cons.mp forward
      obtain ⟨ordered, after⟩ := ih mid more run laterForward
      refine ⟨pairwise_cons.mpr ⟨fun _ _ absurd => absurd.elim, ordered⟩,
        forall_mem_cons.mpr ⟨fun absurd => absurd.elim, fun place mem isRegion => ?_⟩⟩
      exact advances.trans (after place mem isRegion)
    · obtain ⟨here, laterForward⟩ := forall_mem_cons.mp forward
      obtain ⟨ordered, after⟩ := ih _ more run laterForward
      have isCursor := (locateOldLines_spec found).1
      have starts : lineIndex ≤ loc.startIndex := advances.trans (isCursor.symm.trans_le here)
      refine ⟨pairwise_cons.mpr ⟨fun place mem _ isRegion => ?_, ordered⟩,
        forall_mem_cons.mpr ⟨fun _ => starts, fun place mem isRegion => ?_⟩⟩
      · exact after place mem isRegion
      · exact (starts.trans (Nat.le_add_right _ _)).trans (after place mem isRegion)

end Locate

/-- The replacements of a placement are apart from each other and within it. -/
structure Placement.Tidy (mode : ApplyPatchFileUpdateMode) (placement : Placement) : Prop where
  ordered : (placement.replacements mode).Pairwise Edit.Before
  within : ∀ edit ∈ placement.replacements mode,
    placement.startIndex ≤ edit.startIndex ∧ edit.stop ≤ placement.stop

theorem Placement.tidy_insertion (mode : ApplyPatchFileUpdateMode) (index : Nat)
    (newLines : List Text) : (insertion index newLines).Tidy mode := by
  refine ⟨pairwise_singleton _ _, fun edit mem => ?_⟩
  rw [mem_singleton.mp mem]
  exact ⟨le_rfl, le_rfl⟩

/-- Located chunks that follow each other below a bound, and insertions at it:
the sorted replacements are apart. -/
theorem placed_of_placements (mode : ApplyPatchFileUpdateMode) {placements : List Placement}
    (bound : Nat) (tidy : ∀ place ∈ placements, place.Tidy mode)
    (ordered : placements.Pairwise Placement.RegionBefore)
    (regions : ∀ place ∈ placements, place.IsRegion → place.stop ≤ bound)
    (insertions : ∀ index newLines, .insertion index newLines ∈ placements → index = bound) :
    Edit.Placed ((placements.flatMap (Placement.replacements mode)).insertionSort
    Edit.StartsNoLater) bound := by
  have stops : ∀ place ∈ placements, place.stop ≤ bound := by
    intro place mem
    cases place with
    | insertion index newLines => exact (insertions index newLines mem).le
    | region chunk loc => exact regions _ mem trivial
  have isRegion : ∀ place ∈ placements, ∀ edit ∈ place.replacements mode,
      edit.startIndex < bound → place.IsRegion := by
    intro place mem edit isEdit early
    cases place with
    | region chunk loc => trivial
    | insertion index newLines =>
      have starts := ((tidy _ mem).within edit isEdit).1
      have isBound := insertions index newLines mem
      simp only [Placement.startIndex] at starts
      omega
  refine Edit.placed_insertionSort _ bound (fun edit mem => ?_) ?_
  · obtain ⟨place, isPlacement, isEdit⟩ := mem_flatMap.mp mem
    exact ((tidy place isPlacement).within edit isEdit).2.trans (stops place isPlacement)
  · rw [pairwise_flatMap]
    refine ⟨fun place mem => (tidy place mem).ordered.imp fun pre _ _ => pre,
      ordered.imp_of_mem fun isFirst isSecond pre first inFirst second inSecond early late => ?_⟩
    have apart := pre (isRegion _ isFirst first inFirst early)
      (isRegion _ isSecond second inSecond late)
    exact (((tidy _ isFirst).within first inFirst).2.trans apart).trans
      ((tidy _ isSecond).within second inSecond).1

end CodexFormal.Patch
