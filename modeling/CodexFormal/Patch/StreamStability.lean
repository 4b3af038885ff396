import CodexFormal.Patch.ParserRuns

/-!
# Stability of the streamed hunks

A line changes the last hunk or opens a new one, and never changes what the last hunk is for.
So the hunks that are reported while a patch arrives are those of the whole patch, but for the
contents of the last one.
-/

set_option autoImplicit false

namespace CodexFormal.Patch

open StreamingPatchParser StreamingParserState List

inductive Hunk.SameHeader : Hunk → Hunk → Prop where
  | addFile (path first second : Text) : SameHeader (.addFile path first) (.addFile path second)
  | deleteFile (path : Text) : SameHeader (.deleteFile path) (.deleteFile path)
  | updateFile (path : Text) (firstMove secondMove : Option Text)
      (first second : List UpdateFileChunk) :
      SameHeader (.updateFile path firstMove first) (.updateFile path secondMove second)

theorem Hunk.SameHeader.refl (hunk : Hunk) : hunk.SameHeader hunk := by
  cases hunk <;> constructor

theorem Hunk.SameHeader.trans {first second third : Hunk} (left : first.SameHeader second)
    (right : second.SameHeader third) : first.SameHeader third := by
  cases left <;> cases right <;> constructor

/-- All hunks but the last one have stayed, and the last one has kept its header. -/
def Continues (earlier later : List Hunk) : Prop :=
  ∀ kept last, earlier = kept ++ [last] →
    ∃ now more, later = kept ++ now :: more ∧ last.SameHeader now

theorem Continues.refl (hunks : List Hunk) : Continues hunks hunks :=
  fun _ last isLast => ⟨last, [], isLast, .refl last⟩

theorem Continues.trans {first second third : List Hunk} (left : Continues first second)
    (right : Continues second third) : Continues first third := by
  intro kept last isLast
  obtain ⟨now, more, isSecond, sameHeader⟩ := left kept last isLast
  rcases eq_nil_or_concat more with rfl | ⟨between, final, rfl⟩
  · obtain ⟨later, rest, isThird, stillSame⟩ := right kept now isSecond
    exact ⟨later, rest, isThird, sameHeader.trans stillSame⟩
  · obtain ⟨later, rest, isThird, _⟩ := right (kept ++ now :: between) final
      (by rw [isSecond, concat_eq_append, append_assoc, cons_append])
    refine ⟨now, between ++ later :: rest, ?_, sameHeader⟩
    rw [isThird, append_assoc, cons_append]

theorem Continues.append (hunks : List Hunk) (hunk : Hunk) : Continues hunks (hunks ++ [hunk]) := by
  intro kept last isLast
  refine ⟨last, [hunk], ?_, .refl last⟩
  rw [isLast, append_assoc, singleton_append]

theorem Continues.replaceLast (rest : List Hunk) (old new : Hunk) (sameHeader : old.SameHeader
  new) :
    Continues (rest ++ [old]) (rest ++ [new]) := by
  intro kept last isLast
  obtain ⟨rfl, same⟩ := append_inj' isLast rfl
  cases same
  exact ⟨new, [], rfl, sameHeader⟩

theorem LineStep.continues {state next : StreamingParserState} {line : Text}
    (step : LineStep state line next) : Continues state.hunks next.hunks := by
  cases step with
  | header header started notEnded isHeader ensured =>
    cases header with
    | endPatch => exact .refl _
    | _ => exact .append _ _
  | added text path contents rest mode bare isAdded hunks =>
    rw [hunks]
    exact .replaceLast rest _ _ (.addFile path _ _)
  | updated hunkLine path dest chunks rest act mode bare hunks read =>
    rw [hunks]
    exact .replaceLast rest _ _ (.updateFile path _ _ _ _)
  | _ => exact .refl _

theorem pushChar_continues {parser next : StreamingPatchParser} {c : Char}
    (pushed : parser.pushChar c = .ok next) : Continues parser.state.hunks next.state.hunks := by
  unfold pushChar at pushed
  split at pushed
  · cases done : parser.state.nextLine.processLine (stripCarriageReturn parser.lineBuffer) with
    | error error =>
      rw [done] at pushed
      cases pushed
    | ok state =>
      rw [done] at pushed
      cases pushed
      exact (processLine_step done).continues
  · cases pushed
    exact .refl _

theorem pushDelta_continues (parser next : StreamingPatchParser) (delta : Text)
    (pushed : parser.pushDelta delta = .ok next) :
    Continues parser.state.hunks next.state.hunks := by
  induction delta generalizing parser with
  | nil =>
    cases pushed
    exact .refl _
  | cons c rest ih =>
    rw [pushDelta, foldlM_cons] at pushed
    cases first : parser.pushChar c with
    | error error =>
      rw [first] at pushed
      cases pushed
    | ok mid =>
      rw [first] at pushed
      exact (pushChar_continues first).trans (ih mid pushed)

theorem pushDelta_append_ok {parser early late : StreamingPatchParser} {first second : Text}
    (read : parser.pushDelta first = .ok early)
    (whole : parser.pushDelta (first ++ second) = .ok late) :
    early.pushDelta second = .ok late := by
  rw [pushDelta_append, read] at whole
  exact whole

/-- The result of a patch does not depend on its deltas, and what has been reported of it
stays but for the contents of the last hunk, before and after the end of the stream. -/
theorem streamed_hunks_stable (text : Text) (first second : List Text)
    (isFirst : first.flatten = text) (isSecond : second.flatten = text) :
    first.foldlM pushDelta .initial = second.foldlM pushDelta .initial ∧
      parsePieces first = parsePieces second ∧
      ∀ (read : List Text) (rest : Text) (early : StreamingPatchParser),
        read.flatten ++ rest = text → read.foldlM pushDelta .initial = .ok early →
          (∀ late, first.foldlM pushDelta .initial = .ok late →
            Continues early.state.hunks late.state.hunks) ∧
          ∀ final, parsePieces first = .ok final → Continues early.state.hunks final.hunks := by
  have sameRun : first.foldlM pushDelta StreamingPatchParser.initial =
      second.foldlM pushDelta .initial := by
    rw [foldlM_pushDelta, foldlM_pushDelta, isFirst, isSecond]
  refine ⟨sameRun, by rw [parsePieces, parsePieces, sameRun], ?_⟩
  intro read rest early isText isRead
  rw [foldlM_pushDelta] at isRead
  have continues : ∀ late, first.foldlM pushDelta .initial = .ok late →
      Continues early.state.hunks late.state.hunks := by
    intro late isLate
    rw [foldlM_pushDelta, isFirst, ← isText] at isLate
    exact pushDelta_continues early late rest (pushDelta_append_ok isRead isLate)
  refine ⟨continues, ?_⟩
  intro final parsed
  unfold parsePieces at parsed
  cases run : first.foldlM pushDelta StreamingPatchParser.initial with
  | error error =>
    rw [run] at parsed
    cases parsed
  | ok late =>
    rw [run] at parsed
    rw [finish_hunks parsed]
    exact continues late run

def cutPatch : List Text :=
  ["*** Begin Patch\n*** Add File: a\n+x\n+".toList, "y\n*** Delete File: b\n*** End Patch".toList]

theorem cut_patch_hunks_stable :
    parsePieces cutPatch = parsePieces [cutPatch.flatten] ∧
      Continues [.addFile ['a'] ['x', '\n']] [.addFile ['a'] ['x', '\n', 'y', '\n'],
        .deleteFile ['b']] := by
  have stable := streamed_hunks_stable cutPatch.flatten cutPatch [cutPatch.flatten] rfl
    flatten_singleton
  refine ⟨stable.2.1, ?_⟩
  exact (stable.2.2 (cutPatch.take 1) (cutPatch.drop 1).flatten
    ⟨['+'], ⟨.addFile, [.addFile ['a'] ['x', '\n']], none, 3⟩⟩ rfl (by rfl)).2
    ⟨.endedPatch, [.addFile ['a'] ['x', '\n', 'y', '\n'], .deleteFile ['b']], none, 6⟩ (by rfl)

end CodexFormal.Patch
