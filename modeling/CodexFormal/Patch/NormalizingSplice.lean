import CodexFormal.Patch.Placements
import CodexFormal.Patch.StreamingParser

/-!
# Updates that normalise line endings

In the mode that normalises line endings each chunk is one replacement, and the
replacements are applied from the last to the first.  Where they are apart this
is the splice of all of them.
-/

set_option autoImplicit false

namespace CodexFormal.Patch

open Foundation List

variable (lines : List Text)

theorem eraseIdx_iterate (start count : Nat) :
    (fun lines : List Text => lines.eraseIdx start)^[count] lines =
    lines.take start ++ lines.drop (start + count) := by
  induction count with
  | zero => simp
  | succ count ih =>
    rw [Function.iterate_succ_apply', ih, eraseIdx_append_of_length_le (length_take_le _ _)]
    refine congrArg _ ?_
    by_cases isIn : start ≤ lines.length
    · rw [length_take, Nat.min_eq_left isIn, Nat.sub_self, eraseIdx_zero, tail_drop, Nat.add_assoc]
    · rw [drop_eq_nil_of_le (by omega), drop_eq_nil_of_le (by omega)]
      rfl

theorem applyReplacement_take (lines later : List Text) (repl : Replacement)
    (within : repl.stop ≤ lines.length) : applyReplacement (lines.take repl.stop ++ later) repl =
    some (lines.take repl.startIndex ++ repl.newItems ++ later) := by
  have isStop : repl.stop = repl.startIndex + repl.oldLen := rfl
  have front : (lines.take repl.stop).length = repl.stop := by
    rw [length_take, Nat.min_eq_left within]
  have kept : (fun lines : List Text =>
      lines.eraseIdx repl.startIndex)^[repl.oldLen] (lines.take repl.stop ++ later) =
      lines.take repl.startIndex ++ later := by
    rw [eraseIdx_iterate, ← isStop, take_append_of_le_length (by omega), take_take,
      Nat.min_eq_left (by omega), drop_append_of_le_length (by omega),
      drop_eq_nil_of_le (by omega), nil_append]
  have start : (lines.take repl.startIndex).length = repl.startIndex := by
    rw [length_take, Nat.min_eq_left (by omega)]
  unfold applyReplacement
  rw [kept, if_pos (.inr (by rw [length_append]; omega)),
    take_append_of_le_length (by omega), drop_append_of_le_length (by omega),
    take_of_length_le start.le, drop_eq_nil_of_le start.le, nil_append]

theorem applyReplacements_cons (replacement : Replacement) (rest : List Replacement) :
    applyReplacements lines (replacement :: rest) =
    applyReplacements lines rest >>= fun later => applyReplacement later replacement := by
  simp [applyReplacements]

theorem applyReplacements_splices (replacements : List Replacement)
    (off : Nat) (bound : off ≤ lines.length) (placed : Edit.Placed replacements lines.length)
    (after : ∀ repl ∈ replacements, off ≤ repl.startIndex) :
    ∃ out, applyReplacements lines replacements = some (lines.take off ++ out) ∧
    Splices id id off replacements (lines.drop off) out := by
  induction replacements generalizing off with
  | nil =>
    refine ⟨(lines.drop off).map id, ?_, .rest off _⟩
    rw [map_id, take_append_drop]
    rfl
  | cons repl rest ih =>
    obtain ⟨apart, -⟩ := pairwise_cons.mp placed.ordered
    obtain ⟨starts, -⟩ := forall_mem_cons.mp after
    have within := placed.within repl (by simp)
    have isStop : repl.stop = repl.startIndex + repl.oldLen := rfl
    obtain ⟨later, applied, more⟩ := ih repl.stop within placed.tail apart
    have skipped : lines.drop repl.stop = (lines.drop off).drop (repl.stop - off) := by
      rw [drop_drop, Nat.add_sub_cancel' (by omega)]
    rw [skipped] at more
    refine ⟨_, ?_, Splices.take_drop starts (by rw [length_drop]; omega) more⟩
    have front : lines.take repl.startIndex =
        lines.take off ++ (lines.drop off).take (repl.startIndex - off) := by
      rw [← take_add, Nat.add_sub_cancel' starts]
    rw [applyReplacements_cons, applied]
    refine (applyReplacement_take lines later repl within).trans ?_
    rw [front, map_id, map_id]
    simp

/-- The new lines of a file are an exact splice of the chunks where they are placed:
each is one replacement, and replacements with the same start stand in patch order. -/
structure LineSplice (lines : List Text) (placements : List Placement)
    (replacements : List Replacement) (newLines : List Text) : Prop where
  ordered : placements.Pairwise Placement.RegionBefore
  within : ∀ placement ∈ placements, placement.stop ≤ lines.length
  placed : Edit.Placed replacements lines.length
  applied : applyReplacements lines replacements = some newLines
  spliced : Splices id id 0 replacements lines newLines
  complete : replacements.Perm (placements.flatMap (Placement.replacements .normalizeToLf))
  patchOrder : ∀ first second,
    [first, second].Sublist (placements.flatMap (Placement.replacements .normalizeToLf)) →
      first.startIndex ≤ second.startIndex → [first, second].Sublist replacements

theorem Placement.tidy_normalizeToLf (place : Placement) : place.Tidy .normalizeToLf := by
  cases place with
  | insertion index newLines => exact tidy_insertion _ index newLines
  | region chunk loc =>
    refine ⟨pairwise_singleton _ _, fun edit mem => ?_⟩
    rw [mem_singleton.mp mem]
    exact ⟨le_rfl, le_rfl⟩

variable {lines} in
/-- The replacements stay below the insertion point if something is inserted, and
below the end of the file in any case. -/
theorem normalized_placed {chunks : List UpdateFileChunk} {placements : List Placement}
    (places : List.Forall₂ (PlacesChunk .normalizeToLf lines) chunks placements)
    (ordered : placements.Pairwise Placement.RegionBefore)
    (clear : ∀ index newLines, .insertion index newLines ∈ placements →
    ∀ place ∈ placements, place.IsRegion → place.stop ≤ index) :
    Edit.Placed ((placements.flatMap (Placement.replacements .normalizeToLf)).insertionSort
    Edit.StartsNoLater) lines.length := by
  have atIndex := insertion_index places
  by_cases inserts : ∃ index newLines, .insertion index newLines ∈ placements
  · obtain ⟨index, newLines, mem⟩ := inserts
    refine (placed_of_placements .normalizeToLf index
      (fun place _ => place.tidy_normalizeToLf) ordered (clear index newLines mem)
      (fun other otherLines isOther => ?_)).mono ?_
    · exact (atIndex other otherLines isOther).trans (atIndex index newLines mem).symm
    · exact (atIndex index newLines mem).trans_le (insertionIndex_le _ lines)
  · refine placed_of_placements .normalizeToLf lines.length
      (fun place _ => place.tidy_normalizeToLf) ordered (fun place mem _ => ?_)
      fun index newLines mem => absurd ⟨index, newLines, mem⟩ inserts
    exact placements_stop_le places place mem

/-- If the update succeeds, no chunk for the end of the file is found before the
cursor, and no located chunk ends after the point where another one inserts, then
the new lines are an exact splice of the chunks. -/
theorem normalizing_update_is_exact_splice (path : Text) (chunks : List UpdateFileChunk)
    (contents newContents : Text) (placements : List Placement)
    (derived : deriveNormalized path chunks contents = .ok newContents)
    (run : placeChunks .normalizeToLf (splitOriginalLines contents) path chunks 0 =
      .ok placements)
    (forward : ∀ chunk located, .region chunk located ∈ placements →
      chunk.isEndOfFile = true → located.lineIndex ≤ located.startIndex)
    (clear : ∀ index newLines, .insertion index newLines ∈ placements →
      ∀ placement ∈ placements, placement.IsRegion → placement.stop ≤ index) :
    List.Forall₂ (PlacesChunk .normalizeToLf (splitOriginalLines contents)) chunks placements ∧
      ∃ replacements newLines,
        computeReplacements .normalizeToLf (splitOriginalLines contents) path chunks =
          .ok replacements ∧
        LineSplice (splitOriginalLines contents) placements replacements newLines ∧
        newContents = joinWithNewlines (ensureFinalEmpty newLines) := by
  have places := placeChunks_places .normalizeToLf (splitOriginalLines contents) path chunks 0
    placements (Nat.zero_le _) run
  have ordered := (placeChunks_ordered .normalizeToLf (splitOriginalLines contents) path chunks 0
    placements run (placements_forward places (.inr forward))).1
  have placed := normalized_placed places ordered clear
  obtain ⟨newLines, applied, spliced⟩ := applyReplacements_splices (splitOriginalLines contents)
    _ 0 (Nat.zero_le _) placed (fun _ _ => Nat.zero_le _)
  have computed : computeReplacements .normalizeToLf (splitOriginalLines contents) path chunks =
      .ok ((placements.flatMap (Placement.replacements .normalizeToLf)).insertionSort
        Edit.StartsNoLater) := by
    rw [computeReplacements, run]
    rfl
  rw [take_zero, nil_append] at applied
  refine ⟨places, _, newLines, computed, ⟨ordered, placements_stop_le places, placed, applied,
    spliced, perm_insertionSort _ _, fun first second inOrder noLater =>
    pair_sublist_insertionSort noLater inOrder⟩, ?_⟩
  simp only [deriveNormalized, computed, applied, Except.ok.injEq] at derived
  exact derived.symm

def addingChunk : UpdateFileChunk := ⟨none, [], [['x']], [], false⟩

def replacingChunk : UpdateFileChunk := ⟨none, [['a']], [['c']], [], false⟩

theorem added_and_replaced_lines_are_spliced :
    (∃ replacements newLines,
      LineSplice [['a'], ['b']]
        [.insertion 2 [['x']], .region replacingChunk ⟨0, 0, [['a']], [['c']]⟩]
        replacements newLines ∧
      "c\nb\nx\n".toList = joinWithNewlines (ensureFinalEmpty newLines)) ∧
      deriveNormalized ['f'] [addingChunk, replacingChunk] "a\nb\n".toList =
        .ok "c\nb\nx\n".toList := by
  have derived : deriveNormalized ['f'] [addingChunk, replacingChunk] "a\nb\n".toList =
    .ok "c\nb\nx\n".toList := by decide
  refine ⟨?_, derived⟩
  obtain ⟨-, replacements, newLines, -, splice, joined⟩ :=
    normalizing_update_is_exact_splice ['f'] [addingChunk, replacingChunk] "a\nb\n".toList
      "c\nb\nx\n".toList
      [.insertion 2 [['x']], .region replacingChunk ⟨0, 0, [['a']], [['c']]⟩] derived (by decide)
      (by simp) (by simp [Placement.IsRegion, Placement.stop])
  exact ⟨replacements, newLines, splice, joined⟩

def updateOf (lines : String) : Text :=
  ("*** Begin Patch\n*** Update File: f\n" ++ lines ++ "\n*** End Patch").toList

/-- A chunk whose old lines are only found without their blank last line loses the
blank line of its new lines; a chunk for the end of the file replaces what the
chunk before it has put there; and a line inserted before a blank last line goes
with the chunk that replaces that line. -/
theorem trailing_blank_end_of_file_and_insertion_are_lost :
    (parsePatch (updateOf "-a\n-\n+x\n+")).map ApplyPatchArgs.hunks =
        .ok [.updateFile ['f'] none [⟨none, [['a'], []], [['x'], []], [], false⟩]] ∧
      deriveNormalized ['f'] [⟨none, [['a'], []], [['x'], []], [], false⟩] "a\nb\n".toList =
        .ok "x\nb\n".toList ∧
      ¬ [['x'], []] <:+: splitPieces "x\nb\n".toList ∧
      (parsePatch (updateOf "-a\n+b\n@@\n-a\n+c\n*** End of File")).map ApplyPatchArgs.hunks =
        .ok [.updateFile ['f'] none
          [⟨none, [['a']], [['b']], [], false⟩, ⟨none, [['a']], [['c']], [], true⟩]] ∧
      deriveNormalized ['f']
        [⟨none, [['a']], [['b']], [], false⟩, ⟨none, [['a']], [['c']], [], true⟩] "a\n".toList =
          .ok "b\n".toList ∧
      ¬ [['c']] <:+: splitPieces "b\n".toList ∧
      (parsePatch (updateOf "-a\n-\n+z\n@@\n+x")).map ApplyPatchArgs.hunks =
        .ok [.updateFile ['f'] none
          [⟨none, [['a'], []], [['z']], [], false⟩, ⟨none, [], [['x']], [], false⟩]] ∧
      deriveNormalized ['f']
        [⟨none, [['a'], []], [['z']], [], false⟩, ⟨none, [], [['x']], [], false⟩] "a\n\n".toList =
          .ok "z\n".toList ∧
      ¬ [['x']] <:+: splitPieces "z\n".toList := by
  decide

end CodexFormal.Patch
