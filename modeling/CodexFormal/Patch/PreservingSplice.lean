import CodexFormal.Patch.ParsedChunks
import CodexFormal.Patch.Placements

/-!
# Updates that keep line endings

In the mode that keeps line endings the replacements of a located chunk lie
between its context lines.  Together they are spliced into the file: every other
line keeps its text and its ending.
-/

set_option autoImplicit false

namespace CodexFormal.Patch

open Foundation List Bool SourceFile Placement

/-- The context lines that lie within the located old lines and the new lines
used for them. -/
def keptContext (contexts : List (Nat × Nat)) (located : Located) : List (Nat × Nat) :=
  contexts.filter fun pair =>
    pair.1 < located.pattern.length && pair.2 < located.newSlice.length

def addedLines (contexts : List (Nat × Nat)) (located : Located) (newStart : Nat) : List Text :=
  (((located.newSlice.drop newStart).zipIdx newStart).filter fun entry =>
    !((keptContext contexts located).map Prod.snd).contains entry.2).map Prod.fst

/-- Context pairs that increase, from a position on either side. -/
structure ContextFrom (contexts : List (Nat × Nat)) (oldStart newStart : Nat) : Prop where
  increasing : contexts.Pairwise PairBefore
  after : ∀ pair ∈ contexts, oldStart ≤ pair.1 ∧ newStart ≤ pair.2

theorem ContextFrom.tail {pair : Nat × Nat} {rest : List (Nat × Nat)} {oldStart newStart : Nat}
    (contexts : ContextFrom (pair :: rest) oldStart newStart) :
    ContextFrom rest (pair.1 + 1) (pair.2 + 1) := by
  obtain ⟨first, increasing⟩ := pairwise_cons.mp contexts.increasing
  exact ⟨increasing, first⟩

theorem ContextFrom.keptContext_of_outside {oldCtx newCtx : Nat}
    {rest : List (Nat × Nat)} {oldStart newStart : Nat} (located : Located)
    (contexts : ContextFrom ((oldCtx, newCtx) :: rest) oldStart newStart)
    (out : located.pattern.length ≤ oldCtx ∨ located.newSlice.length ≤ newCtx) :
    keptContext ((oldCtx, newCtx) :: rest) located = [] := by
  refine filter_eq_nil_iff.mpr (forall_mem_cons.mpr ⟨?_, fun pair mem => ?_⟩)
  · simp only [and_eq_true, decide_eq_true_eq]
    omega
  · obtain ⟨laterOld, laterNew⟩ := contexts.tail.after pair mem
    simp only [and_eq_true, decide_eq_true_eq]
    omega

variable (located : Located) (oldStart oldStop newStart newStop : Nat)

theorem gapReplacement_bounds (ordered : oldStart ≤ oldStop) :
    ∀ edit ∈ gapReplacement located oldStart oldStop newStart newStop,
    edit.startIndex = located.startIndex + oldStart ∧ edit.stop = located.startIndex + oldStop := by
  intro edit mem
  unfold gapReplacement at mem
  split at mem
  · rw [mem_singleton.mp mem]
    refine ⟨rfl, ?_⟩
    change located.startIndex + oldStart + (oldStop - oldStart) = located.startIndex + oldStop
    omega
  · cases mem

theorem gapReplacement_pairwise :
    (gapReplacement located oldStart oldStop newStart newStop).Pairwise Edit.Before := by
  unfold gapReplacement
  split
  · exact pairwise_singleton _ _
  · exact List.Pairwise.nil

theorem gapReplacement_newItems :
    (gapReplacement located oldStart oldStop newStart newStop).flatMap Edit.newItems =
    (located.newSlice.take newStop).drop newStart := by
  unfold gapReplacement
  split
  · simp
  next noGap =>
    have same : newStart = newStop := by omega
    rw [flatMap_nil, same, eq_comm, drop_eq_nil_iff]
    exact length_take_le _ _

variable (pairs : List (Nat × Nat))

section

variable (oldStart newStart : Nat) (contexts : ContextFrom pairs oldStart newStart)
  (bound : oldStart ≤ located.pattern.length)

include contexts bound

theorem replacementsBetween_tidy :
    (replacementsBetween located pairs oldStart newStart).Pairwise Edit.Before ∧
    ∀ edit ∈ replacementsBetween located pairs oldStart newStart,
    located.startIndex + oldStart ≤ edit.startIndex ∧
    edit.stop ≤ located.startIndex + located.pattern.length := by
  have toTheEnd : ∀ edit ∈ gapReplacement located oldStart located.pattern.length newStart
    located.newSlice.length, located.startIndex + oldStart ≤ edit.startIndex ∧
    edit.stop ≤ located.startIndex + located.pattern.length := fun edit mem =>
    have bounds := gapReplacement_bounds located oldStart _ newStart _ bound edit mem
    ⟨bounds.1.ge, bounds.2.le⟩
  induction pairs generalizing oldStart newStart with
  | nil => exact ⟨gapReplacement_pairwise located _ _ _ _, toTheEnd⟩
  | cons pair rest ih =>
    obtain ⟨oldCtx, newCtx⟩ := pair
    simp only [replacementsBetween]
    split
    · exact ⟨gapReplacement_pairwise located _ _ _ _, toTheEnd⟩
    next isIn =>
      have after := (contexts.after (oldCtx, newCtx) (by simp)).1
      have restBound : oldCtx + 1 ≤ located.pattern.length := by omega
      obtain ⟨ordered, within⟩ := ih (oldCtx + 1) (newCtx + 1) contexts.tail restBound
        fun edit mem =>
        have bounds := gapReplacement_bounds located _ _ _ _ restBound edit mem
        ⟨bounds.1.ge, bounds.2.le⟩
      have first := gapReplacement_bounds located oldStart oldCtx newStart newCtx after
      refine ⟨pairwise_append.mpr ⟨gapReplacement_pairwise located _ _ _ _, ordered,
        fun early isEarly late isLate => ?_⟩, fun edit mem => ?_⟩
      · have stops := (first early isEarly).2
        have starts := (within late isLate).1
        simp only [Edit.Before]
        omega
      · rcases mem_append.mp mem with isEarly | isLate
        · obtain ⟨starts, stops⟩ := first edit isEarly
          omega
        · obtain ⟨starts, stops⟩ := within edit isLate
          omega

theorem replacementsBetween_keeps_context : ∀ pair ∈ keptContext pairs located,
    ∀ edit ∈ replacementsBetween located pairs oldStart newStart,
    ¬ edit.Covers (located.startIndex + pair.1) := by
  induction pairs generalizing oldStart newStart with
  | nil => exact fun pair none => by cases none
  | cons pair rest ih =>
    obtain ⟨oldCtx, newCtx⟩ := pair
    intro kept isKept edit mem
    simp only [replacementsBetween] at mem
    split at mem
    next out =>
      rw [contexts.keptContext_of_outside located out] at isKept
      cases isKept
    next isIn =>
      have after := (contexts.after (oldCtx, newCtx) (by simp)).1
      have restBound : oldCtx + 1 ≤ located.pattern.length := by omega
      obtain ⟨isPair, -⟩ := mem_filter.mp isKept
      have notBefore : oldCtx ≤ kept.1 := by
        rcases mem_cons.mp isPair with rfl | later
        · exact le_rfl
        · exact (Nat.le_succ _).trans (contexts.tail.after kept later).1
      rcases mem_append.mp mem with isEarly | isLate
      · have stops := (gapReplacement_bounds located oldStart oldCtx newStart newCtx after
          edit isEarly).2
        simp only [Edit.Covers]
        omega
      · rcases mem_cons.mp isPair with rfl | later
        · have starts := ((replacementsBetween_tidy located rest _ _ contexts.tail restBound).2
            edit isLate).1
          simp only [Edit.Covers]
          omega
        · exact ih _ _ contexts.tail restBound kept
            (mem_filter.mpr ⟨later, (mem_filter.mp isKept).2⟩) edit isLate

end

variable {pairs} in
theorem addedLines_of_keptContext_nil {located : Located}
    {newStart : Nat} (noneKept : keptContext pairs located = []) :
    addedLines pairs located newStart = located.newSlice.drop newStart := by
  simp [addedLines, noneKept]

theorem zipIdx_filter_map_fst_of_forall (lines : List Text) (start : Nat) (test : Text × Nat → Bool)
    (passes : ∀ entry ∈ lines.zipIdx start, test entry = true) :
    ((lines.zipIdx start).filter test).map Prod.fst = lines := by
  rw [filter_eq_self.mpr passes, zipIdx_map_fst]

theorem addedLines_cons {oldCtx newContext : Nat} {rest : List (Nat × Nat)}
    {located : Located} {oldStart newStart : Nat}
    (contexts : ContextFrom ((oldCtx, newContext) :: rest) oldStart newStart)
    (oldInside : oldCtx < located.pattern.length)
    (newInside : newContext < located.newSlice.length) :
    addedLines ((oldCtx, newContext) :: rest) located newStart =
    (located.newSlice.take newContext).drop newStart ++
    addedLines rest located (newContext + 1) := by
  have after : newStart ≤ newContext := (contexts.after (oldCtx, newContext) (by simp)).2
  have kept : keptContext ((oldCtx, newContext) :: rest) located =
      (oldCtx, newContext) :: keptContext rest located := by
    simp [keptContext, oldInside, newInside]
  have laterKept : ∀ place ∈ (keptContext rest located).map Prod.snd, newContext < place := by
    intro place mem
    obtain ⟨pair, isPair, rfl⟩ := mem_map.mp mem
    exact (contexts.tail.after pair (mem_filter.mp isPair).1).2
  have parts : located.newSlice.drop newStart = (located.newSlice.take newContext).drop newStart ++
        located.newSlice[newContext] :: located.newSlice.drop (newContext + 1) := by
    rw [← drop_append_of_le_length (by rw [length_take]; omega),
      getElem_cons_drop, take_append_drop]
  have partLength : newStart + ((located.newSlice.take newContext).drop newStart).length =
      newContext := by
    rw [length_drop, length_take]
    omega
  unfold addedLines
  rw [kept, parts, zipIdx_append, filter_append, map_append, partLength,
    zipIdx_filter_map_fst_of_forall]
  · refine congrArg _ ?_
    rw [zipIdx_cons, filter_cons_of_neg (by simp)]
    refine congrArg _ (filter_congr fun entry mem => ?_)
    have place := le_snd_of_mem_zipIdx mem
    have ne : entry.2 ≠ newContext := by omega
    simp [ne]
  · intro entry mem
    have place := snd_lt_of_mem_zipIdx mem
    rw [Nat.add_comm, partLength] at place
    have ne : entry.2 ≠ newContext := place.ne
    have notLater : entry.2 ∉ (keptContext rest located).map Prod.snd := fun isLater =>
      absurd (laterKept _ isLater) (by omega)
    simp only [map_cons, not_eq_true', contains_eq_mem, decide_eq_false_iff_not]
    exact not_mem_cons_of_ne_of_not_mem ne notLater

theorem replacementsBetween_newItems
    (oldStart newStart : Nat) (contexts : ContextFrom pairs oldStart newStart) :
    (replacementsBetween located pairs oldStart newStart).flatMap Edit.newItems =
    addedLines pairs located newStart := by
  induction pairs generalizing oldStart newStart with
  | nil =>
    rw [replacementsBetween, gapReplacement_newItems, take_length,
      addedLines_of_keptContext_nil rfl]
  | cons pair rest ih =>
    obtain ⟨oldCtx, newCtx⟩ := pair
    simp only [replacementsBetween]
    split
    next out =>
      rw [gapReplacement_newItems, take_length, addedLines_of_keptContext_nil
        (contexts.keptContext_of_outside located out)]
    · rw [flatMap_append, gapReplacement_newItems, ih _ _ contexts.tail,
        addedLines_cons contexts (by omega) (by omega)]

structure ExactSplice (file : SourceFile) (placements : List Placement)
    (replacements : List Replacement) (updated : SourceFile) : Prop where
  ordered : placements.Pairwise Placement.RegionBefore
  placed : Edit.Placed replacements file.lines.length
  applied : file.applyReplacements replacements = some updated
  spliced : Splices (SourceFile.terminate file.preferredEnding)
    (fun text => ⟨text, some file.preferredEnding⟩) 0 replacements file.lines updated.lines
  context : ∀ chunk located, .region chunk located ∈ placements →
    ∀ pair ∈ keptContext chunk.contextLineIndices located,
      ∀ replacement ∈ replacements, ¬ replacement.Covers (located.startIndex + pair.1)
  added : ∀ chunk located, .region chunk located ∈ placements →
    ((Placement.region chunk located).replacements .preserveLineEndings).flatMap Edit.newItems =
      addedLines chunk.contextLineIndices located 0
  atTheEnd : ∀ index newLines, .insertion index newLines ∈ placements →
    index = file.lines.length
  complete : replacements.Perm
    (placements.flatMap (Placement.replacements .preserveLineEndings))
  patchOrder : ∀ first second,
    [first, second].Sublist (placements.flatMap (Placement.replacements .preserveLineEndings)) →
      first.startIndex ≤ second.startIndex → [first, second].Sublist replacements

section Update

variable (lines : List Text) (chunks : List UpdateFileChunk) (placements : List Placement)

theorem contextFrom_zero {chunk : UpdateFileChunk} (wellFormed : chunk.WellFormed) :
    ContextFrom chunk.contextLineIndices 0 0 :=
  ⟨wellFormed.increasing, fun _ _ => ⟨Nat.zero_le _, Nat.zero_le _⟩⟩

section

variable (wellFormed : ∀ chunk ∈ chunks, chunk.WellFormed)
  (places : List.Forall₂ (PlacesChunk .preserveLineEndings lines) chunks placements)

include wellFormed places

variable {lines chunks placements} in
theorem region_wellFormed {chunk : UpdateFileChunk} {located : Located}
    (mem : .region chunk located ∈ placements) : chunk.WellFormed := by
  obtain ⟨placed, isChunk, rfl, -⟩ := exists_placesChunk _ _ chunks placements places _ mem
  exact wellFormed chunk isChunk

theorem placements_tidy : ∀ place ∈ placements, place.Tidy .preserveLineEndings := by
  intro place mem
  cases place with
  | insertion index newLines => exact tidy_insertion _ index newLines
  | region chunk located =>
    obtain ⟨ordered, within⟩ := replacementsBetween_tidy located _ 0 0
      (contextFrom_zero (region_wellFormed wellFormed places mem)) (Nat.zero_le _)
    exact ⟨ordered, within⟩

variable {lines chunks placements} in
theorem replacements_keep_context (ordered : placements.Pairwise Placement.RegionBefore)
    {chunk : UpdateFileChunk} {located : Located}
    (mem : .region chunk located ∈ placements) {pair : Nat × Nat}
    (isKept : pair ∈ keptContext chunk.contextLineIndices located) {repl : Replacement}
    (isReplacement : repl ∈ placements.flatMap (replacements .preserveLineEndings)) :
    ¬ repl.Covers (located.startIndex + pair.1) := by
  obtain ⟨other, isOther, inOther⟩ := mem_flatMap.mp isReplacement
  have isIn : pair.1 < located.pattern.length := by
    have kept := (mem_filter.mp isKept).2
    simp only [and_eq_true, decide_eq_true_eq] at kept
    exact kept.1
  cases other with
  | insertion index newLines =>
    rw [mem_singleton.mp inOther]
    intro covers
    exact absurd (covers.1.trans_lt covers.2) (Nat.lt_irrefl index)
  | region otherChunk otherLoc =>
    obtain ⟨starts, stops⟩ :=
      (placements_tidy lines chunks placements wellFormed places _ isOther).within _ inOther
    simp only [startIndex, stop] at starts stops
    obtain ⟨here, hereBound, isHere⟩ := getElem_of_mem mem
    obtain ⟨there, thereBound, isThere⟩ := getElem_of_mem isOther
    have apart := pairwise_iff_getElem.mp ordered
    rcases Nat.lt_trichotomy here there with pre | same | after
    · have gap := apart here there hereBound thereBound pre
      rw [isHere, isThere] at gap
      have gap := gap trivial trivial
      simp only [startIndex, stop] at gap
      simp only [Edit.Covers]
      omega
    · subst same
      rw [isHere] at isThere
      cases isThere
      exact replacementsBetween_keeps_context located _ 0 0
        (contextFrom_zero (region_wellFormed wellFormed places mem)) (Nat.zero_le _) pair
        isKept repl inOther
    · have gap := apart there here thereBound hereBound after
      rw [isHere, isThere] at gap
      have gap := gap trivial trivial
      simp only [startIndex, stop] at gap
      simp only [Edit.Covers]
      omega

end

end Update

theorem exactSplice_of_placements {file : SourceFile} {chunks : List UpdateFileChunk}
    {placements : List Placement} {path : Text} (wellFormed : ∀ chunk ∈ chunks, chunk.WellFormed)
    (run : placeChunks .preserveLineEndings file.lineTexts path chunks 0 = .ok placements) :
    ∃ updated, ExactSplice file placements
    ((placements.flatMap (replacements .preserveLineEndings)).insertionSort
    Edit.StartsNoLater) updated := by
  have size : file.lineTexts.length = file.lines.length := length_map _
  have places := placeChunks_places .preserveLineEndings file.lineTexts path chunks 0 placements
    (Nat.zero_le _) run
  have ordered := (placeChunks_ordered .preserveLineEndings file.lineTexts path chunks 0 placements
    run (placements_forward places (.inl rfl))).1
  have atTheEnd : ∀ index newLines, .insertion index newLines ∈ placements →
      index = file.lines.length :=
    fun index newLines mem => (insertion_index places index newLines mem).trans size
  have placed := placed_of_placements .preserveLineEndings file.lines.length
    (placements_tidy file.lineTexts chunks placements wellFormed places) ordered
    (fun place mem _ => size ▸ placements_stop_le places place mem) atTheEnd
  obtain ⟨spliced, applied, splices⟩ := spliceReplacements_splices file.preferredEnding
    _ file.lines 0 (by rwa [Nat.zero_add]) (fun _ _ => Nat.zero_le _)
  refine ⟨⟨spliced.map (terminate file.preferredEnding), file.preferredEnding⟩,
    ordered, placed, ?_, splices.map (terminate file.preferredEnding), ?_, ?_, atTheEnd,
    perm_insertionSort _ _, ?_⟩
  · rw [SourceFile.applyReplacements, applied]
    rfl
  · intro chunk located mem pair isKept repl isReplacement
    exact replacements_keep_context wellFormed places ordered mem isKept ((mem_insertionSort
      _).mp isReplacement)
  · intro chunk located mem
    exact replacementsBetween_newItems located _ 0 0 (contextFrom_zero
      (region_wellFormed wellFormed places mem))
  · intro first second inOrder noLater
    exact pair_sublist_insertionSort noLater inOrder

/-- For the chunks of a parsed patch and any file: if the replacements are found,
they are spliced into the file exactly. -/
theorem preserving_update_is_exact_splice (patch : Text) (args : ApplyPatchArgs)
    (parsed : parsePatch patch = .ok args) (path : Text) (movePath : Option Text)
    (chunks : List UpdateFileChunk) (isUpdate : .updateFile path movePath chunks ∈ args.hunks)
    (nativePath contents : Text) (replacements : List Replacement)
    (computed : computeReplacements .preserveLineEndings (SourceFile.parse contents).lineTexts
      nativePath chunks = .ok replacements) :
    (SourceFile.parse contents).intoContents = contents ∧
      (SourceFile.parse contents).preferredEnding =
        ((SourceFile.parse contents).lines.findSome? SourceLine.ending).getD .lf ∧
      ∃ placements updated,
        placeChunks .preserveLineEndings (SourceFile.parse contents).lineTexts nativePath chunks 0 =
          .ok placements ∧
        List.Forall₂ (PlacesChunk .preserveLineEndings (SourceFile.parse contents).lineTexts)
          chunks placements ∧
        ExactSplice (SourceFile.parse contents) placements replacements updated ∧
        derivePreserving nativePath chunks contents = .ok updated.intoContents := by
  refine ⟨intoContents_parse contents, rfl, ?_⟩
  have wellFormed := parsePatch_wellFormed patch args parsed _ isUpdate
  cases run : placeChunks .preserveLineEndings (parse contents).lineTexts nativePath chunks 0 with
  | error error =>
    rw [computeReplacements, run] at computed
    cases computed
  | ok placements =>
    have isComputed := computed
    rw [computeReplacements, run] at computed
    cases computed
    obtain ⟨updated, exact⟩ := exactSplice_of_placements wellFormed run
    refine ⟨placements, updated, rfl, ?_, exact, ?_⟩
    · exact placeChunks_places _ _ nativePath chunks 0 placements (Nat.zero_le _) run
    · simp only [derivePreserving, isComputed, exact.applied]

def contextPatch : Text :=
  "*** Begin Patch\n*** Update File: f\n a\n-b\n+c\n*** End Patch".toList

def contextChunk : UpdateFileChunk := ⟨none, [['a'], ['b']], [['a'], ['c']], [(0, 0)], false⟩

theorem context_line_keeps_its_ending :
    (∃ placements updated,
      ExactSplice (SourceFile.parse "a\r\nb\n".toList) placements [⟨1, 1, [['c']]⟩] updated ∧
        derivePreserving ['f'] [contextChunk] "a\r\nb\n".toList = .ok updated.intoContents) ∧
      derivePreserving ['f'] [contextChunk] "a\r\nb\n".toList = .ok "a\r\nc\r\n".toList := by
  refine ⟨?_, by decide⟩
  obtain ⟨-, -, placements, updated, -, -, exact, derived⟩ :=
    preserving_update_is_exact_splice contextPatch
      ⟨[.updateFile ['f'] none [contextChunk]], contextPatch, none⟩ (by decide) ['f'] none
      [contextChunk] (by simp) ['f'] "a\r\nb\n".toList [⟨1, 1, [['c']]⟩] (by decide)
  exact ⟨placements, updated, exact, derived⟩

def addThenReplacePatch : Text :=
  "*** Begin Patch\n*** Update File: f\n+x\n@@\n-a\n+b\n*** End Patch".toList

def blankContextPatch : Text :=
  "*** Begin Patch\n*** Update File: f\n \n-\n*** End Patch".toList

/-- The line that the first chunk adds stands after the line of the second chunk;
and where the file has one blank line, the context line is the one that goes. -/
theorem added_line_stands_last_and_blank_context_goes :
    (parsePatch addThenReplacePatch).map ApplyPatchArgs.hunks = .ok [.updateFile ['f'] none
        [⟨none, [], [['x']], [], false⟩, ⟨none, [['a']], [['b']], [], false⟩]] ∧
      computeReplacements .preserveLineEndings [['a']] ['f']
        [⟨none, [], [['x']], [], false⟩, ⟨none, [['a']], [['b']], [], false⟩] =
          .ok [⟨0, 1, [['b']]⟩, ⟨1, 0, [['x']]⟩] ∧
      derivePreserving ['f'] [⟨none, [], [['x']], [], false⟩, ⟨none, [['a']], [['b']], [], false⟩]
        "a\n".toList = .ok "b\nx\n".toList ∧
      ¬ [['x'], ['b']].Sublist (splitPieces "b\nx\n".toList) ∧
      (parsePatch blankContextPatch).map ApplyPatchArgs.hunks = .ok [.updateFile ['f'] none
        [⟨none, [[], []], [[]], [(0, 0)], false⟩]] ∧
      derivePreserving ['f'] [⟨none, [[], []], [[]], [(0, 0)], false⟩] "\n".toList = .ok [] := by
  decide

end CodexFormal.Patch
