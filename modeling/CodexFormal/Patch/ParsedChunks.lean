import CodexFormal.Patch.ParserRuns

/-!
# The chunks of a parsed patch

The parser records each context line of a chunk with its place among the old and
among the new lines.  These pairs increase on both sides and name equal lines.
-/

set_option autoImplicit false

namespace CodexFormal.Patch

open StreamingPatchParser StreamingParserState List

def PairBefore (first second : Nat × Nat) : Prop :=
  first.1 < second.1 ∧ first.2 < second.2

structure UpdateFileChunk.WellFormed (chunk : UpdateFileChunk) : Prop where
  increasing : chunk.contextLineIndices.Pairwise PairBefore
  recorded : ∀ pair ∈ chunk.contextLineIndices,
    ∃ line, chunk.oldLines[pair.1]? = some line ∧ chunk.newLines[pair.2]? = some line

def Hunk.WellFormed : Hunk → Prop
  | updateFile _ _ chunks => ∀ chunk ∈ chunks, chunk.WellFormed
  | _ => True

namespace UpdateFileChunk

variable {chunk : UpdateFileChunk}

section

variable (wellFormed : chunk.WellFormed)

include wellFormed

theorem WellFormed.inRange (pair : Nat × Nat) (mem : pair ∈ chunk.contextLineIndices) :
    pair.1 < chunk.oldLines.length ∧ pair.2 < chunk.newLines.length := by
  obtain ⟨line, isOld, isNew⟩ := wellFormed.recorded pair mem
  exact ⟨(List.getElem?_eq_some_iff.mp isOld).1, (List.getElem?_eq_some_iff.mp isNew).1⟩

omit wellFormed in
theorem wellFormed_start (ctx : Option Text) : WellFormed { empty with changeContext := ctx } :=
  ⟨List.Pairwise.nil, fun pair mem => by cases mem⟩

theorem WellFormed.append (old new : List Text) : WellFormed { chunk with
      oldLines := chunk.oldLines ++ old, newLines := chunk.newLines ++ new } := by
  refine ⟨wellFormed.increasing, fun pair mem => ?_⟩
  obtain ⟨line, isOld, isNew⟩ := wellFormed.recorded pair mem
  obtain ⟨oldRange, newRange⟩ := wellFormed.inRange pair mem
  refine ⟨line, ?_, ?_⟩
  · rw [getElem?_append_left oldRange, isOld]
  · rw [getElem?_append_left newRange, isNew]

variable (line : Text)

theorem WellFormed.pushContextLine : (chunk.pushContextLine line).WellFormed := by
  have extended := wellFormed.append [line] [line]
  refine ⟨?_, fun pair mem => ?_⟩
  · rw [UpdateFileChunk.pushContextLine, pairwise_append]
    refine ⟨wellFormed.increasing, pairwise_singleton _ _, fun pair mem last isLast => ?_⟩
    rw [mem_singleton.mp isLast]
    exact wellFormed.inRange pair mem
  · rcases mem_append.mp mem with earlier | isLast
    · exact extended.recorded pair earlier
    · rw [mem_singleton.mp isLast]
      exact ⟨line, by simp [UpdateFileChunk.pushContextLine],
        by simp [UpdateFileChunk.pushContextLine]⟩

theorem WellFormed.pushNewLine : (chunk.pushNewLine line).WellFormed := by
  simpa [UpdateFileChunk.pushNewLine] using wellFormed.append [] [line]

theorem WellFormed.pushOldLine : (chunk.pushOldLine line).WellFormed := by
  simpa [UpdateFileChunk.pushOldLine] using wellFormed.append [line] []

end

end UpdateFileChunk

theorem changeLastChunk_wellFormed {change : UpdateFileChunk → UpdateFileChunk}
    {chunks : List UpdateFileChunk} (wellFormed : ∀ chunk ∈ chunks, chunk.WellFormed)
    (changed : ∀ chunk : UpdateFileChunk, chunk.WellFormed → (change chunk).WellFormed) :
    ∀ chunk ∈ changeLastChunk change chunks, chunk.WellFormed := by
  intro chunk mem
  unfold changeLastChunk at mem
  split at mem
  · rw [mem_singleton.mp mem]
    exact changed .empty (UpdateFileChunk.wellFormed_start none)
  next last isLast =>
    rcases mem_append.mp mem with earlier | isChanged
    · exact wellFormed chunk (dropLast_subset _ earlier)
    · rw [mem_singleton.mp isChanged]
      exact changed last (wellFormed last (mem_of_getLast? isLast))

theorem perform_wellFormed (act : UpdateAction) (dest : Option Text)
    (chunks : List UpdateFileChunk) (wellFormed : ∀ chunk ∈ chunks, chunk.WellFormed) :
    ∀ chunk ∈ (act.perform dest chunks).2, chunk.WellFormed := by
  cases act with
  | startChunk ctx =>
    intro chunk mem
    rcases mem_append.mp mem with earlier | isNew
    · exact wellFormed chunk earlier
    · rw [mem_singleton.mp isNew]
      exact UpdateFileChunk.wellFormed_start ctx
  | endOfFile =>
    simp only [UpdateAction.perform]
    split
    · exact wellFormed
    · exact changeLastChunk_wellFormed wellFormed
        fun _ kept => ⟨kept.increasing, kept.recorded⟩
  | contextLine text =>
    exact changeLastChunk_wellFormed wellFormed fun _ kept => kept.pushContextLine text
  | addedLine text =>
    exact changeLastChunk_wellFormed wellFormed fun _ kept => kept.pushNewLine text
  | removedLine text =>
    exact changeLastChunk_wellFormed wellFormed fun _ kept => kept.pushOldLine text
  | _ => exact wellFormed

theorem LineStep.wellFormed {state next : StreamingParserState} {line : Text}
    (step : LineStep state line next) (wellFormed : ∀ hunk ∈ state.hunks, hunk.WellFormed) :
    ∀ hunk ∈ next.hunks, hunk.WellFormed := by
  refine step.forall_hunks Hunk.WellFormed (fun _ => trivial) (fun _ => trivial) ?_
    (fun _ _ _ _ => trivial) ?_ wellFormed
  · exact fun _ chunk none => by cases none
  · exact fun _ dest chunks act => perform_wellFormed act dest chunks

theorem feedLines_wellFormed (state final : StreamingParserState) (lines : List Text)
    (wellFormed : ∀ hunk ∈ state.hunks, hunk.WellFormed)
    (run : state.feedLines lines = .ok final) : ∀ hunk ∈ final.hunks, hunk.WellFormed := by
  induction lines generalizing state with
  | nil =>
    cases run
    exact wellFormed
  | cons line rest ih =>
    obtain ⟨mid, fed, later⟩ := feedLines_cons_inv state final line rest run
    exact ih mid ((processLine_step fed).wellFormed wellFormed) later

theorem parsePieces_wellFormed {deltas : List Text} {final : StreamingParserState}
    (parsed : parsePieces deltas = .ok final) : ∀ hunk ∈ final.hunks, hunk.WellFormed := by
  obtain ⟨lines⟩ := parsePieces_ok deltas final parsed
  rw [lines.hunks_eq]
  exact feedLines_wellFormed .initial _ _ (fun hunk none => by cases none) lines.run

theorem parsePatch_wellFormed (patch : Text) (args : ApplyPatchArgs)
    (parsed : parsePatch patch = .ok args) : ∀ hunk ∈ args.hunks, hunk.WellFormed := by
  unfold parsePatch at parsed
  split at parsed
  · cases parsed
  next lines _ =>
    cases pieces : parsePieces [joinWithNewlines lines] with
    | error error =>
      rw [pieces] at parsed
      cases parsed
    | ok final =>
      rw [pieces] at parsed
      cases parsed
      exact parsePieces_wellFormed pieces

end CodexFormal.Patch
