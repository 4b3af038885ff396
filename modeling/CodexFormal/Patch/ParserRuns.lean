import CodexFormal.Patch.StreamingParser

/-!
# Runs of the streaming parser

However a text is cut into pieces, the parser reads its lines one after the
other.  A run that succeeds has an end line after which everything is blank.
-/

set_option autoImplicit false

namespace CodexFormal.Patch

open StreamingPatchParser List

namespace StreamingParserState

variable (state : StreamingParserState)

def feedLine (line : Text) : Except ParseError StreamingParserState :=
  state.nextLine.processLine (stripCarriageReturn line)

def feedLines (lines : List Text) : Except ParseError StreamingParserState :=
  lines.foldlM feedLine state

theorem feedLines_cons_inv (state final : StreamingParserState) (line : Text)
    (rest : List Text) (run : state.feedLines (line :: rest) = .ok final) :
    ∃ mid, state.feedLine line = .ok mid ∧ mid.feedLines rest = .ok final := by
  rw [feedLines, foldlM_cons] at run
  cases fed : state.feedLine line with
  | error error =>
    rw [fed] at run
    cases run
  | ok mid =>
    rw [fed] at run
    exact ⟨mid, rfl, run⟩

theorem feedLines_cons (state mid : StreamingParserState) (line : Text)
    (rest : List Text) (fed : state.feedLine line = .ok mid) :
    state.feedLines (line :: rest) = mid.feedLines rest := by
  rw [feedLines, foldlM_cons, fed]
  rfl

end StreamingParserState

open StreamingParserState

theorem pushDelta_append (parser : StreamingPatchParser) (first second : Text) :
    parser.pushDelta (first ++ second) =
    parser.pushDelta first >>= fun mid => mid.pushDelta second := by
  simp [pushDelta]

theorem foldlM_pushDelta (parser : StreamingPatchParser) (deltas : List Text) :
    deltas.foldlM pushDelta parser = parser.pushDelta deltas.flatten := by
  induction deltas generalizing parser with
  | nil => rfl
  | cons delta rest ih =>
    rw [foldlM_cons, flatten_cons, pushDelta_append]
    exact congrArg _ (funext ih)

variable (deltas : List Text)

theorem parsePieces_flatten : parsePieces deltas = parsePieces [deltas.flatten] := by
  simp [parsePieces, foldlM_pushDelta]

theorem pushDelta_of_notMem (buffer line : Text) (state : StreamingParserState)
    (oneLine : '\n' ∉ line) : pushDelta ⟨buffer, state⟩ line = .ok ⟨buffer ++ line, state⟩ := by
  induction line generalizing buffer with
  | nil =>
    rw [append_nil]
    rfl
  | cons c rest ih =>
    have ne : c ≠ '\n' := fun same => oneLine (by simp [same])
    have pushed : pushChar ⟨buffer, state⟩ c = .ok ⟨buffer ++ [c], state⟩ := by
      simp [pushChar, ne]
    rw [pushDelta, foldlM_cons, pushed]
    refine (ih (buffer ++ [c]) fun mem => oneLine (mem_cons_of_mem c mem)).trans ?_
    simp

theorem pushDelta_unsplitNewlines (state : StreamingParserState) {ended : List Text}
    {last : Text} (oneLine : ∀ line ∈ ended, '\n' ∉ line) (lastLine : '\n' ∉ last) :
    pushDelta ⟨[], state⟩ (unsplitNewlines ended last) =
    (state.feedLines ended).map fun final => ⟨last, final⟩ := by
  induction ended generalizing state with
  | nil => exact pushDelta_of_notMem [] last state lastLine
  | cons line rest ih =>
    have pushed : ∀ text, pushDelta ⟨line, state⟩ ('\n' :: text) =
      (state.feedLine line).map (fun next => (⟨[], next⟩ : StreamingPatchParser)) >>=
      fun parser => parser.pushDelta text := fun _ => rfl
    rw [unsplitNewlines_cons, pushDelta_append,
      pushDelta_of_notMem [] line state (oneLine line (by simp))]
    change pushDelta ⟨line, state⟩ ('\n' :: unsplitNewlines rest last) = _
    rw [pushed]
    cases fed : state.feedLine line with
    | error error =>
      rw [feedLines, foldlM_cons, fed]
      rfl
    | ok mid =>
      rw [feedLines_cons state mid line rest fed]
      exact ih mid fun other mem => oneLine other (mem_cons_of_mem line mem)

/-- A whole text is its ended lines and then the line that `finish` finds. -/
theorem parsePieces_unsplitNewlines (ended : List Text) (last : Text)
    (oneLine : ∀ line ∈ ended, '\n' ∉ line) (lastLine : '\n' ∉ last) :
    parsePieces [unsplitNewlines ended last] =
    (StreamingParserState.initial.feedLines ended) >>= fun state => finish ⟨last, state⟩ := by
  rw [parsePieces, foldlM_pushDelta, flatten_singleton, StreamingPatchParser.initial,
    pushDelta_unsplitNewlines _ oneLine lastLine]
  cases StreamingParserState.initial.feedLines ended <;> rfl

/-- What a section looks at for a header: an update section keeps the white space
in front, since a context line starts with a blank. -/
def headerText (mode : StreamingParserMode) (line : Text) : Text :=
  match mode with
  | .updateFile _ => trimEnd line
  | _ => trim line

theorem trim_headerText (mode : StreamingParserMode) (line : Text) :
    trim (headerText mode line) = trim line := by
  have twice : trim (trim line) = trim line := by
    change trim (trimEnd (trimStart line)) = trim line
    rw [trim_trimEnd, trim_trimStart]
  cases mode with
  | updateFile _ => exact trim_trimEnd line
  | _ => exact twice

inductive LineStep (state : StreamingParserState) (line : Text) : StreamingParserState → Prop where
  | start (mode : state.mode = .notStarted) (marker : trim line = beginPatchMarker) :
      LineStep state line { state with mode := .startedPatch }
  | environment (environmentId rest : Text) (mode : state.mode = .startedPatch)
      (marker : trim line = environmentIdMarker ++ rest) :
      LineStep state line { state with environmentId := some environmentId }
  | header (header : HunkHeader) (started : state.mode ≠ .notStarted)
      (notEnded : state.mode ≠ .endedPatch)
      (isHeader : hunkHeader (headerText state.mode line) = some header)
      (ensured : state.ensureUpdateHunkIsNotEmpty (headerText state.mode line) = .ok ()) :
      LineStep state line (state.enterSection header)
  | added (text path contents : Text) (rest : List Hunk) (mode : state.mode = .addFile)
      (noHeader : hunkHeader (headerText state.mode line) = none) (isAdded : line = '+' :: text)
      (hunks : state.hunks = rest ++ [.addFile path contents]) :
      LineStep state line
        { state with hunks := rest ++ [.addFile path (contents ++ text ++ ['\n'])] }
  | updated (hunkLineNumber : Nat) (path : Text) (movePath : Option Text)
      (chunks : List UpdateFileChunk) (rest : List Hunk) (action : UpdateAction)
      (mode : state.mode = .updateFile hunkLineNumber)
      (noHeader : hunkHeader (headerText state.mode line) = none)
      (hunks : state.hunks = rest ++ [.updateFile path movePath chunks])
      (read : readUpdateLine movePath chunks state.lineNumber line = .ok action) :
      LineStep state line { state with
        hunks := rest ++ [.updateFile path (action.perform movePath chunks).1
          (action.perform movePath chunks).2] }
  | afterEnd (mode : state.mode = .endedPatch) (blank : trim line = []) :
      LineStep state line state

variable (state next : StreamingParserState) (trimmed : Text)

theorem handleHunkHeadersAndEndPatch_ok_some (done : state.handleHunkHeadersAndEndPatch trimmed =
  .ok (some next)) :
    (state.mode = .startedPatch ∧ ∃ environmentId rest, trimmed = environmentIdMarker ++ rest ∧
        next = { state with environmentId := some environmentId }) ∨
      ∃ header, hunkHeader trimmed = some header ∧
        state.ensureUpdateHunkIsNotEmpty trimmed = .ok () ∧ next = state.enterSection header := by
  unfold handleHunkHeadersAndEndPatch at done
  split at done
  next environmentId isId =>
    split at isId
    next mode =>
      refine .inl ⟨mode, trim environmentId, environmentId, stripPrefix_eq_some_iff.mp isId, ?_⟩
      unfold readEnvironmentId at done
      split at done
      · cases done
      · split at done <;> cases done
        rfl
    · cases isId
  · split at done
    · cases done
    next header isHeader =>
      cases ensured : state.ensureUpdateHunkIsNotEmpty trimmed with
      | error error =>
        rw [ensured] at done
        cases done
      | ok _ =>
        rw [ensured] at done
        cases done
        exact .inr ⟨header, isHeader, rfl, rfl⟩

theorem handleHunkHeadersAndEndPatch_ok_none {state : StreamingParserState} {trimmed : Text}
    (done : state.handleHunkHeadersAndEndPatch trimmed = .ok none) : hunkHeader trimmed = none := by
  unfold handleHunkHeadersAndEndPatch at done
  split at done
  next envId _ =>
    cases read : state.readEnvironmentId envId with
    | error error =>
      rw [read] at done
      cases done
    | ok next =>
      rw [read] at done
      cases done
  · split at done
    · assumption
    · cases ensured : state.ensureUpdateHunkIsNotEmpty trimmed with
      | error error =>
        rw [ensured] at done
        cases done
      | ok _ =>
        rw [ensured] at done
        cases done

variable (line : Text)

theorem orHeader_step
    (otherwise : Except ParseError StreamingParserState) (started : state.mode ≠ .notStarted)
    (notEnded : state.mode ≠ .endedPatch)
    (done : state.orHeader (headerText state.mode line) otherwise = .ok next) :
    LineStep state line next ∨
    (hunkHeader (headerText state.mode line) = none ∧ otherwise = .ok next) := by
  unfold orHeader at done
  split at done
  · cases done
  next handled =>
    cases done
    refine .inl ?_
    rcases handleHunkHeadersAndEndPatch_ok_some state next _ handled with
      ⟨mode, envId, rest, mark, rfl⟩ | ⟨header, isHeader, ensured, rfl⟩
    · rw [mode] at mark
      exact .environment envId rest mode mark
    · exact .header header started notEnded isHeader ensured
  next notHandled =>
    exact .inr ⟨handleHunkHeadersAndEndPatch_ok_none notHandled, done⟩

theorem processAddLine_step
    (mode : state.mode = .addFile) (noHeader : hunkHeader (headerText state.mode line) = none)
    (done : state.processAddLine line = .ok next) : LineStep state line next := by
  unfold processAddLine at done
  split at done
  next text path contents bare last =>
    cases done
    exact .added text path contents state.hunks.dropLast mode noHeader
      (stripPrefix_eq_some_iff.mp bare) (dropLast_append_getLast? _ last).symm
  · cases done

theorem processUpdateLine_step (hunkLine : Nat) (mode : state.mode = .updateFile hunkLine)
    (bare : hunkHeader (headerText state.mode line) = none)
    (done : state.processUpdateLine line = .ok next) : LineStep state line next := by
  unfold processUpdateLine at done
  split at done
  next path dest chunks last =>
    cases read : readUpdateLine dest chunks state.lineNumber line with
    | error error =>
      rw [read] at done
      cases done
    | ok act =>
      rw [read] at done
      cases done
      exact .updated hunkLine path dest chunks state.hunks.dropLast act mode bare
        (dropLast_append_getLast? _ last).symm read
  · cases done

variable {state next line} in
theorem processLine_step (done : state.processLine line = .ok next) : LineStep state line next := by
  have read : ∀ otherwise, state.mode ≠ .notStarted → state.mode ≠ .endedPatch →
      state.orHeader (headerText state.mode line) otherwise = .ok next →
      (hunkHeader (headerText state.mode line) = none → otherwise = .ok next →
        LineStep state line next) → LineStep state line next := by
    intro otherwise started notEnded run readBySection
    rcases orHeader_step state next line otherwise started notEnded run with
      step | ⟨bare, got⟩
    · exact step
    · exact readBySection bare got
  unfold processLine at done
  cases mode : state.mode with
  | notStarted =>
    simp only [mode] at done
    split at done
    next mark =>
      cases done
      exact .start mode mark
    · cases done
  | startedPatch =>
    simp only [mode] at done
    refine read _ (by simp [mode]) (by simp [mode]) (by rw [mode]; exact done) ?_
    exact fun _ failed => by cases failed
  | addFile =>
    simp only [mode] at done
    refine read _ (by simp [mode]) (by simp [mode]) (by rw [mode]; exact done) ?_
    exact processAddLine_step state next line mode
  | deleteFile =>
    simp only [mode] at done
    refine read _ (by simp [mode]) (by simp [mode]) (by rw [mode]; exact done) ?_
    exact fun _ failed => by cases failed
  | updateFile hunkLine =>
    simp only [mode] at done
    refine read _ (by simp [mode]) (by simp [mode]) (by rw [mode]; exact done) ?_
    exact processUpdateLine_step state next line hunkLine mode
  | endedPatch =>
    simp only [mode] at done
    split at done
    next blank =>
      cases done
      exact .afterEnd mode blank
    · cases done

theorem LineStep.forall_hunks {state next : StreamingParserState} {line : Text}
    (Property : Hunk → Prop) (step : LineStep state line next)
    (opensAdd : ∀ path, Property (.addFile path []))
    (opensDelete : ∀ path, Property (.deleteFile path))
    (opensUpdate : ∀ path, Property (.updateFile path none []))
    (adds : ∀ path contents text, Property (.addFile path contents) →
    Property (.addFile path (contents ++ text ++ ['\n'])))
    (updates : ∀ path dest chunks (act : UpdateAction), Property (.updateFile path dest chunks) →
    Property (.updateFile path (act.perform dest chunks).1 (act.perform dest chunks).2))
    (held : ∀ hunk ∈ state.hunks, Property hunk) : ∀ hunk ∈ next.hunks, Property hunk := by
  cases step with
  | header header started notEnded isHeader ensured =>
    cases header with
    | endPatch => exact held
    | addFile path =>
      exact forall_mem_append.mpr ⟨held, forall_mem_singleton.mpr (opensAdd path)⟩
    | deleteFile path =>
      exact forall_mem_append.mpr ⟨held, forall_mem_singleton.mpr (opensDelete path)⟩
    | updateFile path =>
      exact forall_mem_append.mpr ⟨held, forall_mem_singleton.mpr (opensUpdate path)⟩
  | added text path contents rest mode bare isAdded hunks =>
    rw [hunks, forall_mem_append, forall_mem_singleton] at held
    rw [forall_mem_append, forall_mem_singleton]
    exact ⟨held.1, adds path contents text held.2⟩
  | updated hunkLine path dest chunks rest act mode bare hunks read =>
    rw [hunks, forall_mem_append, forall_mem_singleton] at held
    rw [forall_mem_append, forall_mem_singleton]
    exact ⟨held.1, updates path dest chunks act held.2⟩
  | _ => exact held

theorem hunkHeader_eq_endPatch
    (isEnd : hunkHeader trimmed = some .endPatch) : trimmed = endPatchMarker := by
  unfold hunkHeader at isEnd
  split at isEnd
  · assumption
  · split at isEnd
    · cases isEnd
    · split at isEnd
      · cases isEnd
      · obtain ⟨path, -, absurd⟩ := Option.map_eq_some_iff.mp isEnd
        cases absurd

/-- A line after which the section may be closed: the marker, in a state whose
update section has lines. -/
structure EndsPatch (state : StreamingParserState) (line : Text) : Prop where
  marker : trim line = endPatchMarker
  ensured : state.ensureUpdateHunkIsNotEmpty endPatchMarker = .ok ()

section

variable {state next : StreamingParserState} {line : Text} (step : LineStep state line next)

include step

theorem LineStep.ends (notEnded : state.mode ≠ .endedPatch)
    (ended : next.mode = .endedPatch) : EndsPatch state line ∧ next.hunks = state.hunks ∧
    next.environmentId = state.environmentId := by
  cases step with
  | start mode mark => cases ended
  | updated hunkLine path dest chunks rest act mode bare hunks read =>
    exact absurd ended notEnded
  | afterEnd mode blank => exact absurd mode notEnded
  | header header started _ isHeader ensured =>
    cases header with
    | endPatch =>
      have mark := hunkHeader_eq_endPatch _ isHeader
      rw [mark] at ensured
      refine ⟨⟨?_, ensured⟩, rfl, rfl⟩
      rw [← trim_headerText state.mode, mark]
      decide
    | _ => cases ended
  | _ => exact absurd ended notEnded

theorem LineStep.after_end (ended : state.mode = .endedPatch) : trim line = [] ∧ next = state := by
  cases step with
  | afterEnd _ blank => exact ⟨blank, rfl⟩
  | header _ _ notEnded _ _ => exact absurd ended notEnded
  | start mode _ => exact absurd (ended.symm.trans mode) (by simp)
  | environment _ _ mode _ => exact absurd (ended.symm.trans mode) (by simp)
  | added _ _ _ _ mode _ _ _ => exact absurd (ended.symm.trans mode) (by simp)
  | updated _ _ _ _ _ _ mode _ _ _ => exact absurd (ended.symm.trans mode) (by simp)

end

theorem feedLines_after_end (state final : StreamingParserState) (lines : List Text)
    (ended : state.mode = .endedPatch) (run : state.feedLines lines = .ok final) :
    (∀ line ∈ lines, trim line = []) ∧ final.mode = .endedPatch ∧
    final.hunks = state.hunks ∧ final.environmentId = state.environmentId := by
  induction lines generalizing state with
  | nil =>
    cases run
    exact ⟨by simp, ended, rfl, rfl⟩
  | cons line rest ih =>
    obtain ⟨mid, fed, later⟩ := feedLines_cons_inv state final line rest run
    obtain ⟨blank, rfl⟩ := (processLine_step fed).after_end ended
    rw [trim_stripCarriageReturn] at blank
    obtain ⟨blanks, mode, hunks, environmentId⟩ := ih state.nextLine ended later
    exact ⟨forall_mem_cons.mpr ⟨blank, blanks⟩, mode, hunks, environmentId⟩

theorem feedLines_ends (state final : StreamingParserState) (lines : List Text)
    (notEnded : state.mode ≠ .endedPatch) (ended : final.mode = .endedPatch)
    (run : state.feedLines lines = .ok final) :
    ∃ pre endLine after mid, lines = pre ++ endLine :: after ∧
    state.feedLines pre = .ok mid ∧ EndsPatch mid.nextLine endLine ∧
    (∀ line ∈ after, trim line = []) ∧
    final.hunks = mid.hunks ∧ final.environmentId = mid.environmentId := by
  induction lines generalizing state with
  | nil =>
    cases run
    exact absurd ended notEnded
  | cons line rest ih =>
    obtain ⟨next, fed, later⟩ := feedLines_cons_inv state final line rest run
    by_cases endsHere : next.mode = .endedPatch
    · obtain ⟨isEnd, hunks, environmentId⟩ :=
        (processLine_step fed).ends notEnded endsHere
      obtain ⟨blanks, -, sameHunks, sameId⟩ :=
        feedLines_after_end next final rest endsHere later
      refine ⟨[], line, rest, state, rfl, rfl, ⟨?_, isEnd.ensured⟩, blanks,
        sameHunks.trans hunks, sameId.trans environmentId⟩
      rw [← trim_stripCarriageReturn]
      exact isEnd.marker
    · obtain ⟨pre, endLine, after, mid, rfl, runBefore, more⟩ := ih next endsHere later
      exact ⟨line :: pre, endLine, after, mid, rfl,
        (feedLines_cons state next line pre fed).trans runBefore, more⟩

variable (last : Text)

theorem finish_ok (state final : StreamingParserState)
    (done : finish ⟨last, state⟩ = .ok final) : final.mode = .endedPatch ∧
    ((last = [] ∧ final = state) ∨ finishLine state.nextLine last = .ok final) := by
  unfold finish at done
  split at done
  · cases done
  next got isReached =>
    split at done
    next ended =>
      cases done
      refine ⟨ended, ?_⟩
      split at isReached
      next empty =>
        cases isReached
        exact .inl ⟨isEmpty_iff.mp empty, rfl⟩
      · exact .inr isReached
    · cases done

variable {last} in
theorem finishLine_ends {state final : StreamingParserState}
    (ended : final.mode = .endedPatch) (done : finishLine state last = .ok final) :
    (EndsPatch state last ∨ (state.mode = .endedPatch ∧ trim last = [])) ∧
    final.hunks = state.hunks ∧ final.environmentId = state.environmentId := by
  unfold finishLine at done
  split at done
  next marker =>
    rw [marker] at done
    cases ensured : state.ensureUpdateHunkIsNotEmpty endPatchMarker with
    | error error =>
      rw [ensured] at done
      cases done
    | ok _ =>
      rw [ensured] at done
      cases done
      exact ⟨.inl ⟨marker, ensured⟩, rfl, rfl⟩
  next notMarker =>
    have step := processLine_step done
    by_cases already : state.mode = .endedPatch
    · obtain ⟨blank, rfl⟩ := step.after_end already
      exact ⟨.inr ⟨already, blank⟩, rfl, rfl⟩
    · exact absurd (step.ends already ended).1.marker notMarker

theorem unsplitNewlines_blank {lines : List Text} {last : Text}
    (blankLines : ∀ line ∈ lines, trim line = []) (blankLast : trim last = []) :
    ∀ c ∈ unsplitNewlines lines last, isWhitespace c = true := by
  intro c mem
  rcases mem_append.mp mem with inLines | inLast
  · obtain ⟨line, isLine, inLine⟩ := mem_flatMap.mp inLines
    rcases mem_append.mp inLine with inText | isNewline
    · exact (trim_eq_nil_iff line).mp (blankLines line isLine) c inText
    · rw [mem_singleton.mp isNewline]
      exact isWhitespace_newline
  · exact (trim_eq_nil_iff last).mp blankLast c inLast

theorem unsplitNewlines_append_cons (pre after : List Text) (line last : Text) :
    unsplitNewlines (pre ++ line :: after) last =
    unsplitNewlines pre line ++ '\n' :: unsplitNewlines after last := by
  simp [unsplitNewlines]

/-- A text that is parsed: lines that are read, an end line, and blank space. -/
structure PatchLines (text : Text) (final : StreamingParserState) where
  before : List Text
  endLine : Text
  blank : Text
  middle : StreamingParserState
  text_eq : text = unsplitNewlines before endLine ++ blank
  oneLine : ∀ line ∈ before, '\n' ∉ line
  endOneLine : '\n' ∉ endLine
  isBlank : ∀ c ∈ blank, isWhitespace c = true
  run : StreamingParserState.initial.feedLines before = .ok middle
  isEnd : EndsPatch middle.nextLine endLine
  hunks_eq : final.hunks = middle.hunks
  environmentId_eq : final.environmentId = middle.environmentId

theorem patchLines_of_ended {ended : List Text} {last : Text}
    {got final : StreamingParserState} (oneLine : ∀ line ∈ ended, '\n' ∉ line)
    (run : StreamingParserState.initial.feedLines ended = .ok got)
    (mode : got.mode = .endedPatch) (blankLast : trim last = [])
    (sameHunks : final.hunks = got.hunks) (sameId : final.environmentId = got.environmentId) :
    Nonempty (PatchLines (unsplitNewlines ended last) final) := by
  obtain ⟨pre, endLine, after, mid, rfl, runBefore, isEnd, blanks, hunks, id⟩ :=
    feedLines_ends .initial got ended (by simp [StreamingParserState.initial]) mode run
  refine ⟨⟨pre, endLine, '\n' :: unsplitNewlines after last, mid,
    unsplitNewlines_append_cons pre after endLine last,
    fun line mem => oneLine line (by simp [mem]), oneLine endLine (by simp), ?_,
    runBefore, isEnd, sameHunks.trans hunks, sameId.trans id⟩⟩
  exact forall_mem_cons.mpr
    ⟨isWhitespace_newline, unsplitNewlines_blank blanks blankLast⟩

theorem parsePieces_run (final : StreamingParserState) (parsed : parsePieces deltas = .ok final) :
    ∃ got, StreamingParserState.initial.feedLines (splitNewlines deltas.flatten).1 =
    .ok got ∧ finish ⟨(splitNewlines deltas.flatten).2, got⟩ = .ok final := by
  obtain ⟨oneLine, lastLine⟩ := splitNewlines_lines deltas.flatten
  rw [parsePieces_flatten, ← unsplitNewlines_splitNewlines deltas.flatten,
    parsePieces_unsplitNewlines _ _ oneLine lastLine] at parsed
  cases run : StreamingParserState.initial.feedLines (splitNewlines deltas.flatten).1 with
  | error error =>
    rw [run] at parsed
    cases parsed
  | ok got =>
    rw [run] at parsed
    exact ⟨got, rfl, parsed⟩

variable {last} in
theorem finish_hunks {state final : StreamingParserState}
    (done : finish ⟨last, state⟩ = .ok final) : final.hunks = state.hunks := by
  obtain ⟨endsFinal, ⟨-, rfl⟩ | finishedLine⟩ := finish_ok last state final done
  · rfl
  · exact (finishLine_ends endsFinal finishedLine).2.1

theorem parsePieces_ok (final : StreamingParserState)
    (parsed : parsePieces deltas = .ok final) : Nonempty (PatchLines deltas.flatten final) := by
  obtain ⟨oneLine, lastLine⟩ := splitNewlines_lines deltas.flatten
  obtain ⟨got, run, done⟩ := parsePieces_run deltas final parsed
  have text := unsplitNewlines_splitNewlines deltas.flatten
  generalize (splitNewlines deltas.flatten).1 = ended at oneLine run text
  generalize (splitNewlines deltas.flatten).2 = last at lastLine done text
  rw [← text]
  obtain ⟨endsFinal, ⟨rfl, rfl⟩ | finishedLine⟩ := finish_ok last got final done
  · exact patchLines_of_ended oneLine run endsFinal rfl rfl rfl
  · obtain ⟨isEnd | ⟨mode, blankLast⟩, hunks, id⟩ :=
      finishLine_ends endsFinal finishedLine
    · exact ⟨⟨ended, last, [], got, (append_nil _).symm, oneLine, lastLine, by simp,
        run, isEnd, hunks, id⟩⟩
    · exact patchLines_of_ended oneLine run mode blankLast hunks id

end CodexFormal.Patch
