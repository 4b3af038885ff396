import CodexFormal.Patch.ParserRuns

/-!
# Parsing at once and in pieces

Parsing a whole text splits it into lines and joins them again before the
streaming parser sees it.  Both steps take a carriage return from the end of a
line, so the lines of the result lose one that streaming keeps.
-/

set_option autoImplicit false

namespace CodexFormal.Patch

open StreamingPatchParser StreamingParserState List

def dropReturnsBeforeNewlines : Text → Text
  | [] => []
  | '\r' :: '\n' :: rest => '\n' :: dropReturnsBeforeNewlines rest
  | c :: rest => c :: dropReturnsBeforeNewlines rest

variable (chunk : UpdateFileChunk)

def UpdateFileChunk.withoutReturns : UpdateFileChunk :=
  { chunk with
    oldLines := chunk.oldLines.map stripCarriageReturn
    newLines := chunk.newLines.map stripCarriageReturn }

def Hunk.withoutReturns : Hunk → Hunk
  | addFile path contents => addFile path (dropReturnsBeforeNewlines contents)
  | deleteFile path => deleteFile path
  | updateFile path movePath chunks =>
    updateFile path movePath (chunks.map UpdateFileChunk.withoutReturns)

def UpdateAction.withoutReturns : UpdateAction → UpdateAction
  | contextLine text => contextLine (stripCarriageReturn text)
  | addedLine text => addedLine (stripCarriageReturn text)
  | removedLine text => removedLine (stripCarriageReturn text)
  | action => action

variable (state : StreamingParserState)

def StreamingParserState.withoutReturns : StreamingParserState :=
  { state with hunks := state.hunks.map Hunk.withoutReturns }

theorem dropReturnsBeforeNewlines_cons {c : Char} {rest : Text}
    (other : c ≠ '\r' ∨ rest.head? ≠ some '\n') :
    dropReturnsBeforeNewlines (c :: rest) = c :: dropReturnsBeforeNewlines rest := by
  rw [dropReturnsBeforeNewlines]
  intro more isReturn isNewline
  subst isReturn isNewline
  simp at other

theorem dropReturnsBeforeNewlines_append {first second : Text}
    (noReturn : first.getLast? ≠ some '\r') : dropReturnsBeforeNewlines (first ++ second) =
    dropReturnsBeforeNewlines first ++ dropReturnsBeforeNewlines second := by
  fun_induction dropReturnsBeforeNewlines first with
  | case1 => rfl
  | case2 rest ih =>
    have later : rest.getLast? ≠ some '\r' := by
      cases rest with
      | nil => simp
      | cons d rest => simpa using noReturn
    simp [dropReturnsBeforeNewlines, ih later]
  | case3 c rest notPair ih =>
    cases rest with
    | nil =>
      have other : c ≠ '\r' := fun same => noReturn (by simp [same])
      exact dropReturnsBeforeNewlines_cons (.inl other)
    | cons d rest =>
      have other : c ≠ '\r' ∨ (d :: (rest ++ second)).head? ≠ some '\n' := by
        by_contra both
        push Not at both
        exact notPair rest both.1 (by simpa using both.2)
      rw [cons_append, cons_append, dropReturnsBeforeNewlines_cons other,
        ← cons_append, ih (by simpa using noReturn)]
      rfl

variable (line : Text)

theorem dropReturnsBeforeNewlines_line (oneLine : '\n' ∉ line) :
    dropReturnsBeforeNewlines (line ++ ['\n']) = stripCarriageReturn line ++ ['\n'] := by
  induction line with
  | nil => rfl
  | cons c rest ih =>
    have later : '\n' ∉ rest := fun mem => oneLine (mem_cons_of_mem c mem)
    by_cases lastReturn : c = '\r' ∧ rest = []
    · obtain ⟨rfl, rfl⟩ := lastReturn
      rfl
    · have other : c ≠ '\r' ∨ (rest ++ ['\n']).head? ≠ some '\n' := by
        by_cases isReturn : c = '\r'
        · right
          cases rest with
          | nil => exact absurd ⟨isReturn, rfl⟩ lastReturn
          | cons d rest => simpa using fun same : d = '\n' => later (by simp [same])
        · exact .inl isReturn
      rw [cons_append, dropReturnsBeforeNewlines_cons other, ih later]
      cases rest with
      | nil =>
        have notReturn : c ≠ '\r' := fun same => lastReturn ⟨same, rfl⟩
        rw [stripCarriageReturn_cons notReturn]
        rfl
      | cons d rest =>
        simp only [stripCarriageReturn, getLast?_cons_cons, dropLast_cons_cons]
        split <;> rfl

@[simp] theorem hasNoLines_withoutReturns : chunk.withoutReturns.hasNoLines = chunk.hasNoLines := by
  simp [UpdateFileChunk.hasNoLines, UpdateFileChunk.withoutReturns]

variable (chunks : List UpdateFileChunk)

@[simp] theorem lastChunkHasNoLines_withoutReturns :
    lastChunkHasNoLines (chunks.map .withoutReturns) = lastChunkHasNoLines chunks := by
  simp only [lastChunkHasNoLines, getLast?_map, Option.any_map]
  exact congrArg (Option.any · _) (funext hasNoLines_withoutReturns)

theorem lastIsEndOfFile_withoutReturns :
    (chunks.map UpdateFileChunk.withoutReturns).getLast?.any UpdateFileChunk.isEndOfFile =
    chunks.getLast?.any UpdateFileChunk.isEndOfFile := by
  rw [getLast?_map, Option.any_map]
  rfl

variable (state : StreamingParserState)

theorem ensureUpdateHunkIsNotEmpty_withoutReturns (line : Text) :
    state.withoutReturns.ensureUpdateHunkIsNotEmpty line =
    state.ensureUpdateHunkIsNotEmpty line := by
  simp only [ensureUpdateHunkIsNotEmpty, withoutReturns, getLast?_map]
  cases state.hunks.getLast? with
  | none => rfl
  | some hunk =>
    cases hunk with
    | updateFile path dest chunks =>
      simp [Hunk.withoutReturns, lastChunkHasNoLines_withoutReturns]
    | _ => rfl

theorem enterSection_withoutReturns (header : HunkHeader) :
    state.withoutReturns.enterSection header = (state.enterSection header).withoutReturns := by
  cases header <;>
    simp [enterSection, withoutReturns, Hunk.withoutReturns, dropReturnsBeforeNewlines]

theorem readEnvironmentId_withoutReturns (environmentId : Text) :
    state.withoutReturns.readEnvironmentId environmentId =
    (state.readEnvironmentId environmentId).map withoutReturns := by
  have given : state.withoutReturns.environmentId = state.environmentId := rfl
  rw [readEnvironmentId, readEnvironmentId, given]
  by_cases repeated : state.environmentId.isSome = true
  · rw [if_pos repeated, if_pos repeated]
    rfl
  · rw [if_neg repeated, if_neg repeated]
    split <;> rfl

theorem handleHunkHeadersAndEndPatch_withoutReturns (trimmed : Text) :
    state.withoutReturns.handleHunkHeadersAndEndPatch trimmed =
    (state.handleHunkHeadersAndEndPatch trimmed).map (Option.map withoutReturns) := by
  have mode : state.withoutReturns.mode = state.mode := rfl
  simp only [handleHunkHeadersAndEndPatch, mode, ensureUpdateHunkIsNotEmpty_withoutReturns,
    enterSection_withoutReturns, readEnvironmentId_withoutReturns]
  cases (if state.mode = .startedPatch then stripPrefix trimmed environmentIdMarker else none) with
  | some envId =>
    dsimp only
    cases state.readEnvironmentId envId <;> rfl
  | none =>
    cases hunkHeader trimmed with
    | none => rfl
    | some header => cases state.ensureUpdateHunkIsNotEmpty trimmed <;> rfl

theorem readChunkLine_withoutReturns (lineNumber : Nat) (line : Text) (act : UpdateAction)
    (read : readChunkLine chunks lineNumber line = .ok act) :
    readChunkLine (chunks.map .withoutReturns) lineNumber
    (stripCarriageReturn line) = .ok act.withoutReturns := by
  cases line with
  | nil =>
    cases read
    rfl
  | cons c text =>
    simp only [readChunkLine] at read
    split at read
    next isContext =>
      cases read
      rw [isContext, stripCarriageReturn_cons (by decide)]
      rfl
    · split at read
      next isAdded =>
        cases read
        rw [isAdded, stripCarriageReturn_cons (by decide)]
        rfl
      · split at read
        next isRemoved =>
          cases read
          rw [isRemoved, stripCarriageReturn_cons (by decide)]
          rfl
        · split at read <;> cases read

theorem readUpdateLine_withoutReturns {dest : Option Text} {chunks : List UpdateFileChunk}
    {lineNumber : Nat} {line : Text} {act : UpdateAction}
    (read : readUpdateLine dest chunks lineNumber line = .ok act) :
    readUpdateLine dest (chunks.map UpdateFileChunk.withoutReturns) lineNumber
    (stripCarriageReturn line) = .ok act.withoutReturns := by
  simp only [readUpdateLine, trimEnd_stripCarriageReturn, lastIsEndOfFile_withoutReturns,
    lastChunkHasNoLines_withoutReturns, isEmpty_map] at read ⊢
  split at read
  next skipped =>
    cases read
    rw [if_pos skipped]
    rfl
  next notSkipped =>
    rw [if_neg notSkipped]
    split at read
    · cases read
    next may =>
      rw [if_neg may]
      split at read
      · cases read
        rfl
      · split at read
        · cases read
        next notRepeated =>
          rw [if_neg notRepeated]
          split at read
          next isMarker =>
            cases read
            rw [if_pos isMarker]
            rfl
          next notMarker =>
            rw [if_neg notMarker]
            split at read
            · cases read
              rfl
            · split at read
              next isEof =>
                rw [if_pos isEof]
                split at read
                · cases read
                next hasLines =>
                  cases read
                  rw [if_neg hasLines]
                  rfl
              next notEof =>
                rw [if_neg notEof]
                exact readChunkLine_withoutReturns chunks lineNumber line act read

theorem changeLastChunk_withoutReturns {change bare : UpdateFileChunk → UpdateFileChunk}
    (chunks : List UpdateFileChunk)
    (commutes : ∀ chunk, bare chunk.withoutReturns = (change chunk).withoutReturns) :
    changeLastChunk bare (chunks.map .withoutReturns) =
    (changeLastChunk change chunks).map .withoutReturns := by
  simp only [changeLastChunk, getLast?_map]
  cases chunks.getLast? with
  | none => exact congrArg (fun chunk => [chunk]) (commutes .empty)
  | some last => simp [commutes]

theorem perform_withoutReturns (act : UpdateAction) (dest : Option Text)
    (chunks : List UpdateFileChunk) : act.withoutReturns.perform dest (chunks.map .withoutReturns) =
    ((act.perform dest chunks).1, (act.perform dest chunks).2.map .withoutReturns) := by
  have pushed : ∀ change bare : UpdateFileChunk → UpdateFileChunk,
      (∀ chunk, bare chunk.withoutReturns = (change chunk).withoutReturns) →
      (dest, changeLastChunk bare (chunks.map .withoutReturns)) =
        (dest, (changeLastChunk change chunks).map .withoutReturns) :=
    fun change bare commutes =>
      congrArg _ (changeLastChunk_withoutReturns chunks commutes)
  cases act with
  | startChunk ctx => simp [UpdateAction.withoutReturns, UpdateAction.perform,
      UpdateFileChunk.withoutReturns, UpdateFileChunk.empty]
  | endOfFile =>
    simp only [UpdateAction.withoutReturns, UpdateAction.perform, isEmpty_map]
    split
    · rfl
    · exact pushed _ _ fun _ => rfl
  | contextLine text =>
    exact pushed (·.pushContextLine text) (·.pushContextLine (stripCarriageReturn text))
      fun chunk => by simp [UpdateFileChunk.pushContextLine, UpdateFileChunk.withoutReturns]
  | addedLine text =>
    exact pushed (·.pushNewLine text) (·.pushNewLine (stripCarriageReturn text))
      fun chunk => by simp [UpdateFileChunk.pushNewLine, UpdateFileChunk.withoutReturns]
  | removedLine text =>
    exact pushed (·.pushOldLine text) (·.pushOldLine (stripCarriageReturn text))
      fun chunk => by simp [UpdateFileChunk.pushOldLine, UpdateFileChunk.withoutReturns]
  | _ => rfl

def Hunk.EndsLine : Hunk → Prop
  | addFile _ contents => contents.getLast? ≠ some '\r'
  | _ => True

def ContentsEndLines : Prop :=
  ∀ hunk ∈ state.hunks, hunk.EndsLine

theorem processAddLine_withoutReturns {state next : StreamingParserState} {line : Text}
    (oneLine : '\n' ∉ line) (contentsEnd : ContentsEndLines state)
    (done : state.processAddLine line = .ok next) :
    state.withoutReturns.processAddLine (stripCarriageReturn line) = .ok next.withoutReturns := by
  unfold processAddLine at done
  split at done
  next text path contents bare last =>
    cases done
    have isAdded : line = '+' :: text := stripPrefix_eq_some_iff.mp bare
    subst isAdded
    have strippedTwice : stripPrefix (stripCarriageReturn ('+' :: text)) ['+'] =
        some (stripCarriageReturn text) := by
      rw [stripPrefix_eq_some_iff, stripCarriageReturn_cons (by decide)]
      rfl
    have lastTwice : state.withoutReturns.hunks.getLast? =
        some (.addFile path (dropReturnsBeforeNewlines contents)) := by
      simp only [withoutReturns, getLast?_map, last]
      rfl
    have textOneLine : '\n' ∉ text := fun mem => oneLine (mem_cons_of_mem _ mem)
    have contentsTwice : dropReturnsBeforeNewlines (contents ++ (text ++ ['\n'])) =
        dropReturnsBeforeNewlines contents ++ (stripCarriageReturn text ++ ['\n']) := by
      rw [dropReturnsBeforeNewlines_append (contentsEnd _ (mem_of_getLast? last)),
        dropReturnsBeforeNewlines_line text textOneLine]
    simp only [processAddLine, strippedTwice, lastTwice]
    simp [withoutReturns, Hunk.withoutReturns, contentsTwice]
  · cases done

theorem processUpdateLine_withoutReturns {state next : StreamingParserState} {line : Text}
    (done : state.processUpdateLine line = .ok next) :
    state.withoutReturns.processUpdateLine (stripCarriageReturn line) =
    .ok next.withoutReturns := by
  unfold processUpdateLine at done
  split at done
  next path dest chunks last =>
    cases read : readUpdateLine dest chunks state.lineNumber line with
    | error error =>
      rw [read] at done
      cases done
    | ok act =>
      rw [read] at done
      cases done
      have lastTwice : state.withoutReturns.hunks.getLast? =
          some (.updateFile path dest (chunks.map UpdateFileChunk.withoutReturns)) := by
        simp only [withoutReturns, getLast?_map, last]
        rfl
      have readTwice := readUpdateLine_withoutReturns read
      simp only [processUpdateLine, lastTwice]
      rw [show state.withoutReturns.lineNumber = state.lineNumber from rfl, readTwice]
      simp [Except.map, perform_withoutReturns, withoutReturns, Hunk.withoutReturns]
  · cases done

theorem orHeader_withoutReturns {state next : StreamingParserState} {trimmed : Text}
    {otherwise bare : Except ParseError StreamingParserState}
    (agree : otherwise = .ok next → bare = .ok next.withoutReturns)
    (done : state.orHeader trimmed otherwise = .ok next) :
    state.withoutReturns.orHeader trimmed bare = .ok next.withoutReturns := by
  unfold orHeader at done ⊢
  rw [handleHunkHeadersAndEndPatch_withoutReturns]
  split at done
  · cases done
  next handled =>
    cases done
    rw [handled]
    rfl
  next notHandled =>
    rw [notHandled]
    exact agree done

theorem processLine_withoutReturns {state next : StreamingParserState} {line : Text}
    (oneLine : '\n' ∉ line) (contentsEnd : ContentsEndLines state)
    (done : state.processLine line = .ok next) :
    state.withoutReturns.processLine (stripCarriageReturn line) = .ok next.withoutReturns := by
  have modeSame : state.withoutReturns.mode = state.mode := rfl
  simp only [processLine, modeSame, trim_stripCarriageReturn, trimEnd_stripCarriageReturn] at done ⊢
  split at done
  · split at done
    next mark =>
      cases done
      exact if_pos mark
    · cases done
  · exact orHeader_withoutReturns (fun failed => by cases failed) done
  · exact orHeader_withoutReturns (processAddLine_withoutReturns oneLine contentsEnd) done
  · exact orHeader_withoutReturns (fun failed => by cases failed) done
  · exact orHeader_withoutReturns (processUpdateLine_withoutReturns) done
  · split at done
    next blank =>
      cases done
      exact if_pos blank
    · cases done

theorem LineStep.contentsEndLines {state next : StreamingParserState} {line : Text}
    (step : LineStep state line next) (contentsEnd : ContentsEndLines state) :
    ContentsEndLines next := by
  refine step.forall_hunks Hunk.EndsLine ?_ (fun _ => trivial) (fun _ => trivial) ?_
    (fun _ _ _ _ _ => trivial) contentsEnd
  · exact fun _ => by simp [Hunk.EndsLine]
  · exact fun _ contents text _ => by simp [Hunk.EndsLine]

theorem feedLines_withoutReturns (state final : StreamingParserState) (lines : List Text)
    (oneLine : ∀ line ∈ lines, '\n' ∉ line) (contentsEnd : ContentsEndLines state)
    (run : state.feedLines lines = .ok final) :
    state.withoutReturns.feedLines (lines.map stripCarriageReturn) = .ok final.withoutReturns := by
  induction lines generalizing state with
  | nil =>
    cases run
    rfl
  | cons line rest ih =>
    obtain ⟨mid, fed, later⟩ := feedLines_cons_inv state final line rest run
    obtain ⟨lineOneLine, restOneLine⟩ := forall_mem_cons.mp oneLine
    have contentsEndNext : ContentsEndLines state.nextLine := contentsEnd
    have fedTwice : state.withoutReturns.feedLine (stripCarriageReturn line) =
        .ok mid.withoutReturns :=
      processLine_withoutReturns
        (fun mem => lineOneLine (mem_of_mem_stripCarriageReturn _ _ mem))
        contentsEndNext fed
    rw [map_cons, feedLines_cons _ _ _ _ fedTwice]
    exact ih mid restOneLine ((processLine_step fed).contentsEndLines contentsEndNext) later

variable (text : Text)

theorem trimStart_ne_nil (seen : trim text ≠ []) : trimStart text ≠ [] :=
  fun empty => seen ((trim_eq_nil_iff text).mpr ((trimStart_eq_nil_iff text).mp empty))

theorem trimEnd_ne_nil (seen : trim text ≠ []) : trimEnd text ≠ [] :=
  fun empty => seen ((trim_eq_nil_iff text).mpr ((trimEnd_eq_nil_iff text).mp empty))

theorem trim_patchLines {first : Text} {mid : List Text} {endLine blank : Text}
    (firstVisible : trim first ≠ []) (endVisible : trim endLine ≠ [])
    (isBlank : ∀ c ∈ blank, isWhitespace c = true) :
    trim (unsplitNewlines (first :: mid) endLine ++ blank) =
    unsplitNewlines (trimStart first :: mid) (trimEnd endLine) := by
  rw [trim_append_of_whitespace _ blank isBlank, unsplitNewlines_cons, trim,
    trimStart_append_of_ne_nil first _ (trimStart_ne_nil first firstVisible),
    ← unsplitNewlines_cons, unsplitNewlines,
    trimEnd_append_of_ne_nil _ endLine (trimEnd_ne_nil endLine endVisible), ← unsplitNewlines]

theorem feedLine_initial (line : Text)
    (fed : StreamingParserState.initial.feedLine line = .ok state) :
    trim line = beginPatchMarker ∧ state = ⟨.startedPatch, [], none, 1⟩ := by
  cases processLine_step fed with
  | start mode mark =>
    rw [trim_stripCarriageReturn] at mark
    exact ⟨mark, rfl⟩
  | environment envId rest mode => cases mode
  | header header started => exact absurd rfl started
  | added text path contents rest mode => cases mode
  | updated hunkLine path dest chunks rest act mode => cases mode
  | afterEnd mode => cases mode

theorem initial_feedLine_of_begin (mark : trim line = beginPatchMarker) :
    StreamingParserState.initial.feedLine line = .ok ⟨.startedPatch, [], none, 1⟩ := by
  have trimmed : trim (stripCarriageReturn line) = beginPatchMarker := by
    rw [trim_stripCarriageReturn, mark]
  exact if_pos trimmed

theorem checkPatchBoundariesLenient_of_markers (first endLine : Text) (mid : List Text)
    (begins : trim first = beginPatchMarker) (ends : trim endLine = endPatchMarker) :
    checkPatchBoundariesLenient ((first :: mid) ++ [endLine]) =
    .ok ((first :: mid) ++ [endLine]) := by
  have strict : checkPatchBoundariesStrict ((first :: mid) ++ [endLine]) =
      .ok ((first :: mid) ++ [endLine]) := by
    rw [checkPatchBoundariesStrict, getLast?_concat]
    simp [checkStartAndEndLinesStrict, begins, ends, Except.map]
  simp only [checkPatchBoundariesLenient, strict]

theorem finish_of_endsPatch (endLine : Text) (isEnd : EndsPatch state.nextLine endLine) :
    finish ⟨endLine, state⟩ = .ok { state.nextLine with mode := .endedPatch } := by
  have here : endLine.isEmpty = false := by
    cases endLine with
    | nil => exact absurd isEnd.marker (by decide)
    | cons c rest => rfl
  simp [finish, here, finishLine, isEnd.marker, isEnd.ensured, Except.map]

/-- A text that is parsed in pieces and has a line before its end line is parsed
at once to the same hunks without carriage returns. -/
theorem parsePatch_of_patchLines (final : StreamingParserState)
    (lines : PatchLines text final) (some : lines.before ≠ []) : ∃ patch, parsePatch text =
    .ok ⟨final.hunks.map Hunk.withoutReturns, patch, final.environmentId⟩ := by
  obtain ⟨before, endLine, blank, got, rfl, oneLine, endOneLine, isBlank, run, isEnd,
    hunks, environmentId⟩ := lines
  obtain ⟨first, mid, rfl⟩ := exists_cons_of_ne_nil some
  obtain ⟨firstOneLine, middleOneLine⟩ := forall_mem_cons.mp oneLine
  obtain ⟨started, fed, later⟩ := feedLines_cons_inv _ _ _ _ run
  obtain ⟨begins, rfl⟩ := feedLine_initial started first fed
  -- the lines of the trimmed text
  have firstVisible : trim first ≠ [] := by rw [begins]; decide
  have endVisible : trim endLine ≠ [] := by rw [isEnd.marker]; decide
  have startOneLine : ∀ line ∈ trimStart first :: mid, '\n' ∉ line :=
    forall_mem_cons.mpr
      ⟨fun mem => firstOneLine ((dropWhile_suffix _).subset mem), middleOneLine⟩
  have front : trimEnd endLine <+: endLine := rdropWhile_prefix _ _
  have lastOneLine : '\n' ∉ trimEnd endLine := fun mem => endOneLine (front.subset mem)
  have split := textLines_unsplitNewlines (trimStart first :: mid) (trimEnd endLine)
    startOneLine lastOneLine (trimEnd_ne_nil endLine endVisible)
  have beginsTwice : trim (stripCarriageReturn (trimStart first)) = beginPatchMarker := by
    rw [trim_stripCarriageReturn, trim_trimStart, begins]
  have endsTwice : trim (trimEnd endLine) = endPatchMarker := by
    rw [trim_trimEnd, isEnd.marker]
  -- the run over these lines
  have strippedOneLine : ∀ line ∈ (trimStart first :: mid).map stripCarriageReturn,
      '\n' ∉ line := by
    intro line mem
    obtain ⟨raw, isRaw, rfl⟩ := mem_map.mp mem
    exact fun inLine => startOneLine raw isRaw (mem_of_mem_stripCarriageReturn _ _ inLine)
  have runTwice : StreamingParserState.initial.feedLines
      ((trimStart first :: mid).map stripCarriageReturn) = .ok got.withoutReturns := by
    rw [map_cons, feedLines_cons _ _ _ _ (initial_feedLine_of_begin _ beginsTwice)]
    refine feedLines_withoutReturns _ got mid middleOneLine ?_ later
    exact fun hunk mem => by cases mem
  have done := finish_of_endsPatch got.withoutReturns (trimEnd endLine)
    ⟨endsTwice, (ensureUpdateHunkIsNotEmpty_withoutReturns got.nextLine _).trans isEnd.ensured⟩
  refine ⟨unsplitNewlines ((trimStart first :: mid).map stripCarriageReturn) (trimEnd endLine), ?_⟩
  rw [parsePatch, trim_patchLines firstVisible endVisible isBlank,
    split, map_cons, checkPatchBoundariesLenient_of_markers _ _ _ beginsTwice endsTwice]
  simp only [← map_cons, joinWithNewlines_append_singleton]
  rw [parsePieces_unsplitNewlines _ _ strippedOneLine lastOneLine, runTwice]
  simp only [bind, Except.bind, done, Except.map, hunks, environmentId]
  rfl

theorem parsePatch_of_trim_eq_end (lone : trim text = endPatchMarker) :
    parsePatch text = .error .firstLine := by
  rw [parsePatch, lone]
  decide

def UpdateFileChunk.FreeOfReturns : Prop :=
  ∀ line ∈ chunk.oldLines ++ chunk.newLines, line.getLast? ≠ some '\r'

def Hunk.FreeOfReturns : Hunk → Prop
  | addFile _ contents => ¬ ['\r', '\n'] <:+: contents
  | deleteFile _ => True
  | updateFile _ _ chunks => ∀ chunk ∈ chunks, chunk.FreeOfReturns

theorem dropReturnsBeforeNewlines_eq_self_iff :
    dropReturnsBeforeNewlines text = text ↔ ¬ ['\r', '\n'] <:+: text := by
  fun_induction dropReturnsBeforeNewlines text with
  | case1 => simp
  | case2 rest ih =>
    have here : ['\r', '\n'] <:+: '\r' :: '\n' :: rest := ⟨[], rest, rfl⟩
    simp [here]
  | case3 c rest notPair ih =>
    have notHere : ¬ ['\r', '\n'] <+: c :: rest := by
      rintro ⟨more, pair⟩
      injection pair with isReturn isNewline
      exact notPair more isReturn.symm isNewline.symm
    rw [infix_cons_iff, cons_inj_right, ih]
    simp [notHere]

theorem map_eq_self_iff {Item : Type} (change : Item → Item) (items : List Item) :
    items.map change = items ↔ ∀ item ∈ items, change item = item := by
  conv_lhs => rw [← map_id items, map_map]
  rw [map_inj_left]
  rfl

theorem UpdateFileChunk.withoutReturns_eq_self_iff :
    chunk.withoutReturns = chunk ↔ chunk.FreeOfReturns := by
  cases chunk with
  | mk ctx oldLines newLines indices isEndOfFile =>
    simp only [withoutReturns, mk.injEq, true_and, and_true, map_eq_self_iff,
      stripCarriageReturn_eq_self_iff, FreeOfReturns, forall_mem_append]

theorem Hunk.withoutReturns_eq_self_iff (hunk : Hunk) :
    hunk.withoutReturns = hunk ↔ hunk.FreeOfReturns := by
  cases hunk with
  | addFile path contents =>
    simp [withoutReturns, FreeOfReturns, dropReturnsBeforeNewlines_eq_self_iff]
  | deleteFile path => simp [withoutReturns, FreeOfReturns]
  | updateFile path dest chunks =>
    simp [withoutReturns, FreeOfReturns, map_eq_self_iff,
      UpdateFileChunk.withoutReturns_eq_self_iff]

/-- Whenever the pieces of a text are parsed, parsing the text at once gives the
same hunks and environment id exactly if the text is more than an end line and no
line of the hunks ends in a carriage return. -/
theorem parsePatch_agrees_iff_freeOfReturns (deltas : List Text) (final : StreamingParserState)
    (streamed : parsePieces deltas = .ok final) :
    (∃ args, parsePatch deltas.flatten = .ok args ∧ args.hunks = final.hunks ∧
    args.environmentId = final.environmentId) ↔
    trim deltas.flatten ≠ endPatchMarker ∧ ∀ hunk ∈ final.hunks, hunk.FreeOfReturns := by
  obtain ⟨lines⟩ := parsePieces_ok deltas final streamed
  by_cases lone : lines.before = []
  · have isEnd : trim deltas.flatten = endPatchMarker := by
      rw [lines.text_eq, trim_append_of_whitespace _ _ lines.isBlank, lone]
      exact lines.isEnd.marker
    have fails := parsePatch_of_trim_eq_end deltas.flatten isEnd
    constructor
    · rintro ⟨args, parsed, -⟩
      rw [fails] at parsed
      cases parsed
    · rintro ⟨more, -⟩
      exact absurd isEnd more
  · obtain ⟨patch, parsed⟩ := parsePatch_of_patchLines deltas.flatten final lines lone
    have more : trim deltas.flatten ≠ endPatchMarker := by
      intro isEnd
      rw [parsePatch_of_trim_eq_end deltas.flatten isEnd] at parsed
      cases parsed
    rw [parsed]
    constructor
    · rintro ⟨args, isArgs, sameHunks, -⟩
      cases isArgs
      refine ⟨more, fun hunk mem => ?_⟩
      exact hunk.withoutReturns_eq_self_iff.mp ((map_eq_self_iff _ _).mp sameHunks hunk mem)
    · rintro ⟨-, free⟩
      refine ⟨_, rfl, (map_eq_self_iff _ _).mpr fun hunk mem => ?_, rfl⟩
      exact hunk.withoutReturns_eq_self_iff.mpr (free hunk mem)

end CodexFormal.Patch
