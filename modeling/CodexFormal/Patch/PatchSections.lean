import CodexFormal.Patch.ParseAgreement

/-!
# The lines of a patch that are contents

Which lines of a text stand for lines of files can be read off the text: a
scanner follows its headers.  It keeps in step with the streaming parser, so the
carriage returns that parsing at once loses are those that such a line has
besides its line end.
-/

set_option autoImplicit false

namespace CodexFormal.Patch

open StreamingPatchParser StreamingParserState List UpdateFileChunk

/-- The part of a patch text that a line stands in.  Of an update section it is
known whether a chunk has been opened and whether the file has been ended in it. -/
inductive PatchSection where
  | outside
  | add
  | update (hasChunk ended : Bool)
deriving DecidableEq, Repr

namespace PatchSection

def opened : HunkHeader → PatchSection
  | .endPatch => outside
  | .addFile _ => add
  | .deleteFile _ => outside
  | .updateFile _ => update false false

def headerText : PatchSection → Text → Text
  | update _ _, line => trimEnd line
  | _, line => trim line

/-- The update section after a line that is not a header. -/
def nextUpdate (hasChunk ended : Bool) (updateLine : Text) : PatchSection :=
  if startsChunk updateLine then update true false
  else if ended then update hasChunk true
  else if updateLine = eofMarker then update hasChunk hasChunk
  else if moveToMarker.isPrefixOf updateLine then update hasChunk false
  else update true false

def next (current : PatchSection) (line : Text) : PatchSection :=
  match hunkHeader (current.headerText line), current with
  | some header, _ => opened header
  | none, update hasChunk ended => nextUpdate hasChunk ended (trimEnd line)
  | none, _ => current

def marksChunkLine (line : Text) : Bool :=
  line.head?.any fun c => c == ' ' || c == '+' || c == '-'

/-- Whether the line stands for a line of a file. -/
def isContent (current : PatchSection) (line : Text) : Bool :=
  (hunkHeader (current.headerText line)).isNone &&
    match current with
    | outside => false
    | add => true
    | update _ ended => !ended && marksChunkLine line

def contentLines : PatchSection → List Text → List Text
  | _, [] => []
  | current, line :: rest =>
    (if current.isContent line then [line] else []) ++ contentLines (current.next line) rest

end PatchSection

variable (text : Text)

/-- The lines of a patch text that stand for lines of files, without the newlines
that end them. -/
def contentLines : List Text :=
  PatchSection.contentLines .outside (splitNewlines text).1

variable (line : Text)

theorem getLast?_stripCarriageReturn_iff :
    (stripCarriageReturn line).getLast? = some '\r' ↔ ['\r', '\r'] <:+ line := by
  constructor
  · intro ends
    rcases stripCarriageReturn_cases line with ⟨same, notReturn⟩ | short
    · rw [same] at ends
      exact absurd ends notReturn
    · obtain ⟨rest, isRest⟩ := getLast?_eq_some_iff.mp ends
      exact ⟨rest, by rw [short, isRest]; simp⟩
  · rintro ⟨rest, rfl⟩
    have split : rest ++ ['\r', '\r'] = (rest ++ ['\r']) ++ ['\r'] := by simp
    rw [split, stripCarriageReturn, if_pos (by simp), dropLast_concat]
    simp

theorem getLast?_cons_ne_return_iff (mark : Char) (text : Text) (other : mark ≠ '\r') :
    (mark :: text).getLast? ≠ some '\r' ↔ text.getLast? ≠ some '\r' := by
  cases text with
  | nil => simp [other]
  | cons c rest => rw [getLast?_cons_cons]

variable (now : PatchSection)

theorem headerText_stripCarriageReturn (line : Text) :
    now.headerText (stripCarriageReturn line) = now.headerText line := by
  cases now with
  | update _ _ => exact trimEnd_stripCarriageReturn line
  | _ => exact trim_stripCarriageReturn line

open PatchSection

theorem next_stripCarriageReturn (line : Text) :
    now.next (stripCarriageReturn line) = now.next line := by
  simp [PatchSection.next, headerText_stripCarriageReturn, trimEnd_stripCarriageReturn]

theorem head?_stripCarriageReturn (test : Char → Bool) (other : test '\r' = false) :
    (stripCarriageReturn line).head?.any test = line.head?.any test := by
  cases line with
  | nil => rfl
  | cons c rest =>
    by_cases isReturn : c = '\r'
    · subst isReturn
      cases rest with
      | nil => simp [stripCarriageReturn, other]
      | cons d rest =>
        simp only [stripCarriageReturn, dropLast_cons_cons]
        split <;> rfl
    · rw [stripCarriageReturn_cons isReturn]
      rfl

theorem isContent_stripCarriageReturn (line : Text) :
    now.isContent (stripCarriageReturn line) = now.isContent line := by
  simp only [isContent, headerText_stripCarriageReturn]
  cases now with
  | update hasChunk ended =>
    rw [marksChunkLine, head?_stripCarriageReturn line _ (by decide)]
    rfl
  | _ => rfl

/-- The lines of an update section, each with what it asks for. -/
inductive UpdateLine (chunks : List UpdateFileChunk) (line : Text) : UpdateAction → Prop where
  | skip (ended : chunks.getLast?.any UpdateFileChunk.isEndOfFile = true)
      (blank : trimEnd line = []) : UpdateLine chunks line .skip
  | moveTo (path : Text) (first : chunks = []) (marker : trimEnd line = moveToMarker ++ path) :
      UpdateLine chunks line (.moveTo path)
  | startChunk (context : Option Text) (starts : startsChunk (trimEnd line) = true) :
      UpdateLine chunks line (.startChunk context)
  | endOfFile (notEnded : chunks.getLast?.any UpdateFileChunk.isEndOfFile = false)
      (marker : trimEnd line = eofMarker) : UpdateLine chunks line .endOfFile
  | chunkLine (action : UpdateAction)
      (notEnded : chunks.getLast?.any UpdateFileChunk.isEndOfFile = false)
      (read : ∃ lineNumber, readChunkLine chunks lineNumber line = .ok action) :
      UpdateLine chunks line action

theorem startsChunk_of_stripPrefix {updateLine ctx : Text}
    (bare : stripPrefix updateLine changeContextMarker = some ctx) :
    startsChunk updateLine = true := by
  rw [stripPrefix_eq_some_iff.mp bare]
  simp [startsChunk]

theorem startsChunk_eq_false (updateLine : Text) (notMarker : updateLine ≠ emptyChangeContextMarker)
    (notContext : stripPrefix updateLine changeContextMarker = none) :
    startsChunk updateLine = false := by
  rw [startsChunk, Bool.or_eq_false_iff]
  refine ⟨by simpa using notMarker, ?_⟩
  rw [← Bool.not_eq_true, isPrefixOf_iff_prefix]
  rintro ⟨ctx, isContext⟩
  rw [stripPrefix_eq_some_iff.mpr isContext.symm] at notContext
  cases notContext

variable (dest : Option Text) (chunks : List UpdateFileChunk)

variable {dest chunks} in
theorem readUpdateLine_updateLine {lineNumber : Nat} {line : Text} {action : UpdateAction}
    (read : readUpdateLine dest chunks lineNumber line = .ok action) :
    UpdateLine chunks line action := by
  simp only [readUpdateLine] at read
  split at read
  next skipped =>
    cases read
    rw [Bool.and_eq_true, List.isEmpty_iff] at skipped
    exact .skip skipped.1 skipped.2
  · split at read
    · cases read
    next may =>
      split at read
      next path isMove =>
        cases read
        split at isMove
        next first =>
          rw [Bool.and_eq_true, List.isEmpty_iff] at first
          exact .moveTo path first.1 (stripPrefix_eq_some_iff.mp isMove)
        · cases isMove
      · split at read
        · cases read
        · split at read
          next mark =>
            cases read
            exact .startChunk none (by rw [mark]; decide)
          next notMarker =>
            split at read
            next ctx bare =>
              cases read
              exact .startChunk (some ctx) (startsChunk_of_stripPrefix bare)
            next notContext =>
              -- the line does not start a chunk, so the file has not ended
              have notStarts := startsChunk_eq_false _ notMarker notContext
              have notEnded : chunks.getLast?.any isEndOfFile = false := by
                simpa [notStarts] using may
              split at read
              next isEof =>
                split at read
                · cases read
                · cases read
                  exact .endOfFile notEnded isEof
              · exact .chunkLine action notEnded ⟨lineNumber, read⟩

def UpdateAction.pushed : UpdateAction → Option Text
  | contextLine text => some text
  | addedLine text => some text
  | removedLine text => some text
  | _ => none

open UpdateAction

variable {chunks} in
theorem readChunkLine_pushes {lineNumber : Nat} {line : Text}
    {action : UpdateAction} (read : readChunkLine chunks lineNumber line = .ok action) :
    ∃ text, action.pushed = some text ∧ ((line = [] ∧ text = []) ∨
    ∃ mark, (mark = ' ' ∨ mark = '+' ∨ mark = '-') ∧ line = mark :: text) := by
  cases line with
  | nil =>
    cases read
    exact ⟨[], rfl, .inl ⟨rfl, rfl⟩⟩
  | cons c text =>
    simp only [readChunkLine] at read
    refine ⟨text, ?_, .inr ⟨c, ?_, rfl⟩⟩ <;> grind [pushed]

variable {act : UpdateAction}

theorem perform_pushed {text : Text} (dest : Option Text)
    (chunks : List UpdateFileChunk) (pushes : act.pushed = some text) :
    ∃ change : UpdateFileChunk → UpdateFileChunk,
    (act.perform dest chunks).2 = changeLastChunk change chunks ∧
    (∀ chunk, (change chunk).isEndOfFile = chunk.isEndOfFile) ∧
    ∀ chunk, (change chunk).FreeOfReturns ↔ chunk.FreeOfReturns ∧ text.getLast? ≠ some '\r' := by
  cases act with
  | contextLine line =>
    cases pushes
    refine ⟨(·.pushContextLine text), rfl, fun _ => rfl, fun chunk => ?_⟩
    simp only [UpdateFileChunk.FreeOfReturns, pushContextLine,
      List.forall_mem_append, List.forall_mem_singleton]
    tauto
  | addedLine line =>
    cases pushes
    refine ⟨(·.pushNewLine text), rfl, fun _ => rfl, fun chunk => ?_⟩
    simp only [UpdateFileChunk.FreeOfReturns, pushNewLine,
      List.forall_mem_append, List.forall_mem_singleton]
    tauto
  | removedLine line =>
    cases pushes
    refine ⟨(·.pushOldLine text), rfl, fun _ => rfl, fun chunk => ?_⟩
    simp only [UpdateFileChunk.FreeOfReturns, pushOldLine,
      List.forall_mem_append, List.forall_mem_singleton]
    tauto
  | _ => cases pushes

theorem freeOfReturns_start (ctx : Option Text) :
    UpdateFileChunk.FreeOfReturns { empty with changeContext := ctx } :=
  fun line mem => by cases mem

variable (change : UpdateFileChunk → UpdateFileChunk)

theorem forall_changeLastChunk_iff (extra : Prop) (chunks : List UpdateFileChunk)
    (changed : ∀ chunk, (change chunk).FreeOfReturns ↔ chunk.FreeOfReturns ∧ extra) :
    (∀ chunk ∈ changeLastChunk change chunks, chunk.FreeOfReturns) ↔
    (∀ chunk ∈ chunks, chunk.FreeOfReturns) ∧ extra := by
  unfold changeLastChunk
  split
  next noChunk =>
    rw [getLast?_eq_none_iff.mp noChunk, List.forall_mem_singleton, changed]
    simp [show empty.FreeOfReturns from freeOfReturns_start none]
  next last isLast =>
    conv_rhs => rw [← dropLast_append_getLast? last isLast]
    rw [List.forall_mem_append, List.forall_mem_singleton, changed, List.forall_mem_append,
      List.forall_mem_singleton, and_assoc]

theorem getLast?_changeLastChunk (chunks : List UpdateFileChunk) :
    (changeLastChunk change chunks).getLast? = some (change (chunks.getLast?.getD .empty)) := by
  unfold changeLastChunk
  split
  next noChunk =>
    rw [noChunk]
    rfl
  next last isLast =>
    rw [isLast, getLast?_concat]
    rfl

theorem head?_of_prefix_trimEnd (c : Char) (mark line : Text)
    (starts : c :: mark <+: trimEnd line) : line.head? = some c := by
  obtain ⟨rest, isLine⟩ := starts.trans <| rdropWhile_prefix _ _
  rw [← isLine]
  rfl

theorem head?_of_startsChunk (starts : startsChunk (trimEnd line) = true) :
    line.head? = some '@' := by
  rw [startsChunk, Bool.or_eq_true, beq_iff_eq, isPrefixOf_iff_prefix] at starts
  rcases starts with isMarker | ctx
  · exact head?_of_prefix_trimEnd '@' ['@'] line ⟨[], isMarker.symm⟩
  · exact head?_of_prefix_trimEnd '@' ['@', ' '] line ctx

theorem not_startsChunk (other : line.head? ≠ some '@') : startsChunk (trimEnd line) = false := by
  rw [← Bool.not_eq_true]
  exact fun starts => other (head?_of_startsChunk line starts)

theorem head?_of_eofMarker (mark : trimEnd line = eofMarker) : line.head? = some '*' :=
  head?_of_prefix_trimEnd '*' [] line (by rw [mark]; decide)

theorem head?_of_moveToMarker (line path : Text) (mark : moveToMarker ++ path = trimEnd line) :
    line.head? = some '*' :=
  head?_of_prefix_trimEnd '*' [] line ⟨_, mark⟩

theorem marksChunkLine_of_head? (c : Char) (first : line.head? = some c)
    (other : (c == ' ' || c == '+' || c == '-') = false) : marksChunkLine line = false := by
  rw [marksChunkLine, first]
  exact other

theorem UpdateLine.freeOfReturns_iff {chunks : List UpdateFileChunk} {line : Text}
    {act : UpdateAction} (isLine : UpdateLine chunks line act) (dest : Option Text) :
    (∀ chunk ∈ (act.perform dest chunks).2, chunk.FreeOfReturns) ↔
    (∀ chunk ∈ chunks, chunk.FreeOfReturns) ∧ (chunks.getLast?.any isEndOfFile = false →
    marksChunkLine line = true → line.getLast? ≠ some '\r') := by
  cases isLine with
  | skip ended blank => simp [perform, ended]
  | moveTo path first marker =>
    have unmarked := marksChunkLine_of_head? line '*'
      (head?_of_moveToMarker line path marker.symm) (by decide)
    simp [perform, unmarked]
  | startChunk ctx starts =>
    have unmarked := marksChunkLine_of_head? line '@' (head?_of_startsChunk line starts) (by decide)
    simp only [perform, List.forall_mem_append, List.forall_mem_singleton]
    simp [unmarked, freeOfReturns_start ctx]
  | endOfFile notEnded marker =>
    have unmarked := marksChunkLine_of_head? line '*' (head?_of_eofMarker line marker) (by decide)
    simp only [perform, unmarked]
    split
    · simp
    · rw [forall_changeLastChunk_iff _ True chunks fun chunk => by
        simp [UpdateFileChunk.FreeOfReturns]]
      simp
  | chunkLine _ notEnded read =>
    obtain ⟨lineNumber, read⟩ := read
    obtain ⟨text, pushes, isRead⟩ := readChunkLine_pushes read
    obtain ⟨change, performed, -, changed⟩ := perform_pushed dest chunks pushes
    rw [performed, forall_changeLastChunk_iff change _ chunks changed]
    refine and_congr_right fun _ => ?_
    rcases isRead with ⟨rfl, rfl⟩ | ⟨mark, isMark, rfl⟩
    · simp
    · have marked : marksChunkLine (mark :: text) = true := by
        rcases isMark with rfl | rfl | rfl <;> rfl
      have notReturn : mark ≠ '\r' := by
        rcases isMark with rfl | rfl | rfl <;> decide
      simp only [notEnded, marked, forall_const]
      exact (getLast?_cons_ne_return_iff mark text notReturn).symm

def lastChunks (hunks : List Hunk) : List UpdateFileChunk :=
  match hunks.getLast? with
  | some (.updateFile _ _ chunks) => chunks
  | _ => []

def PatchSection.ofChunks (chunks : List UpdateFileChunk) : PatchSection :=
  update (!chunks.isEmpty) (chunks.getLast?.any UpdateFileChunk.isEndOfFile)

def StreamingParserState.currentSection (state : StreamingParserState) : PatchSection :=
  match state.mode with
  | .addFile => .add
  | .updateFile _ => .ofChunks (lastChunks state.hunks)
  | _ => .outside

theorem lastChunks_concat (rest : List Hunk) (path : Text) (dest : Option Text)
    (chunks : List UpdateFileChunk) :
    lastChunks (rest ++ [.updateFile path dest chunks]) = chunks := by
  rw [lastChunks, getLast?_concat]

theorem currentSection_updateFile {state : StreamingParserState} {hunkLine : Nat}
    {path : Text} {dest : Option Text} {chunks : List UpdateFileChunk} {rest : List Hunk}
    (mode : state.mode = .updateFile hunkLine)
    (hunks : state.hunks = rest ++ [.updateFile path dest chunks]) :
    state.currentSection = .ofChunks chunks := by
  rw [currentSection, mode, hunks, lastChunks_concat]

theorem headerText_currentSection (state : StreamingParserState) (line : Text) :
    state.currentSection.headerText line = headerText state.mode line := by
  unfold currentSection headerText
  cases state.mode <;> rfl

theorem ofChunks_changeLastChunk (chunks : List UpdateFileChunk) :
    ofChunks (changeLastChunk change chunks) =
    .update true (change (chunks.getLast?.getD .empty)).isEndOfFile := by
  have last := getLast?_changeLastChunk change chunks
  have here : (changeLastChunk change chunks).isEmpty = false := by
    rw [← Bool.not_eq_true, List.isEmpty_iff]
    intro empty
    rw [empty] at last
    cases last
  rw [ofChunks, here, last]
  rfl

theorem UpdateLine.nextUpdate_eq {chunks : List UpdateFileChunk} {line : Text}
    {act : UpdateAction} (isLine : UpdateLine chunks line act) (dest : Option Text) :
    nextUpdate (!chunks.isEmpty) (chunks.getLast?.any isEndOfFile) (trimEnd line) =
    .ofChunks (act.perform dest chunks).2 := by
  cases isLine with
  | skip ended blank =>
    have noStart : startsChunk [] = false := by decide
    simp only [nextUpdate, blank, noStart, ended, perform, ofChunks]
    rfl
  | moveTo path first marker =>
    have noStart := not_startsChunk line (by
      rw [head?_of_moveToMarker line path marker.symm]
      decide)
    have notEof : trimEnd line ≠ eofMarker := by
      intro isEof
      have among : moveToMarker <+: eofMarker := ⟨path, by rw [← isEof, marker]⟩
      exact absurd among (by decide)
    have moves : moveToMarker.isPrefixOf (trimEnd line) = true := by
      rw [marker, isPrefixOf_iff_prefix]
      exact prefix_append _ _
    simp [nextUpdate, noStart, first, notEof, moves, perform, ofChunks]
  | startChunk ctx starts =>
    simp [nextUpdate, starts, perform, ofChunks, empty]
  | endOfFile notEnded marker =>
    have noStart : startsChunk eofMarker = false := by decide
    have ends : nextUpdate (!chunks.isEmpty) false (trimEnd line) =
        .update (!chunks.isEmpty) (!chunks.isEmpty) := by
      simp [nextUpdate, noStart, marker]
    rw [notEnded, ends]
    cases chunks with
    | nil => rfl
    | cons chunk rest =>
      exact (ofChunks_changeLastChunk (fun chunk => { chunk with isEndOfFile := true })
        (chunk :: rest)).symm
  | chunkLine _ notEnded read =>
    obtain ⟨lineNumber, read⟩ := read
    obtain ⟨text, pushes, isRead⟩ := readChunkLine_pushes read
    obtain ⟨change, performed, keepsEnd, -⟩ := perform_pushed dest chunks pushes
    have notMarker : line.head? ≠ some '@' ∧ line.head? ≠ some '*' := by
      rcases isRead with ⟨rfl, -⟩ | ⟨mark, rfl | rfl | rfl, rfl⟩ <;> simp
    have noStart := not_startsChunk line notMarker.1
    have notEof : trimEnd line ≠ eofMarker :=
      fun marker => notMarker.2 (head?_of_eofMarker line marker)
    have notMove : moveToMarker.isPrefixOf (trimEnd line) = false := by
      rw [← Bool.not_eq_true, isPrefixOf_iff_prefix]
      rintro ⟨path, marker⟩
      exact notMarker.2 (head?_of_moveToMarker line path marker)
    have lastNotEnded : (chunks.getLast?.getD .empty).isEndOfFile = false := by
      cases last : chunks.getLast? with
      | none => rfl
      | some chunk => simpa [last] using notEnded
    rw [performed, ofChunks_changeLastChunk, keepsEnd, lastNotEnded]
    simp [nextUpdate, noStart, notEnded, notEof, notMove]

theorem hunkHeader_environmentIdMarker (rest : Text) :
    hunkHeader (environmentIdMarker ++ rest) = none := by
  have other : ∀ mark path, environmentIdMarker ++ rest = mark ++ path →
      environmentIdMarker <+: mark ∨ mark <+: environmentIdMarker :=
    fun mark path same => prefix_or_prefix_of_prefix (prefix_append _ rest)
      (same ▸ prefix_append mark path)
  have notStripped : ∀ mark, ¬ (environmentIdMarker <+: mark ∨ mark <+: environmentIdMarker) →
      stripPrefix (environmentIdMarker ++ rest) mark = none := by
    intro mark apart
    rw [Option.eq_none_iff_forall_ne_some]
    exact fun path bare =>
      apart (other mark path (stripPrefix_eq_some_iff.mp bare))
  have notEnd : environmentIdMarker ++ rest ≠ endPatchMarker :=
    fun same => absurd (other endPatchMarker [] (by rw [same, append_nil])) (by decide)
  rw [hunkHeader, if_neg notEnd, notStripped addFileMarker (by decide),
    notStripped deleteFileMarker (by decide), notStripped updateFileMarker (by decide)]
  rfl

theorem next_of_header (line : Text) (header : HunkHeader)
    (isHeader : hunkHeader (now.headerText line) = some header) :
    now.next line = .opened header := by
  simp [PatchSection.next, isHeader]

theorem next_outside (bare : hunkHeader (trim line) = none) :
    PatchSection.outside.next line = .outside := by
  simp [PatchSection.next, PatchSection.headerText, bare]

theorem LineStep.currentSection_eq {state next : StreamingParserState} {line : Text}
    (step : LineStep state line next) : next.currentSection = state.currentSection.next line := by
  cases step with
  | start mode mark =>
    have pre : state.currentSection = .outside := by rw [currentSection, mode]
    rw [pre, next_outside line (by rw [mark]; decide)]
    rfl
  | environment envId rest mode mark =>
    have pre : state.currentSection = .outside := by rw [currentSection, mode]
    rw [pre, next_outside line (by rw [mark, hunkHeader_environmentIdMarker])]
    rw [currentSection, mode]
  | afterEnd mode blank =>
    have pre : state.currentSection = .outside := by rw [currentSection, mode]
    rw [pre, next_outside line (by rw [blank]; decide)]
  | header header started notEnded isHeader ensured =>
    rw [next_of_header _ line header (by rw [headerText_currentSection, isHeader])]
    cases header with
    | updateFile path =>
      exact congrArg ofChunks (lastChunks_concat state.hunks path none [])
    | _ => rfl
  | added text path contents rest mode bare isAdded hunks =>
    have pre : state.currentSection = .add := by rw [currentSection, mode]
    rw [← headerText_currentSection, pre] at bare
    simp only [pre, PatchSection.next, bare]
    rw [currentSection, mode]
  | updated hunkLine path dest chunks rest act mode bare hunks read =>
    have pre := currentSection_updateFile mode hunks
    rw [← headerText_currentSection, pre] at bare
    have isLine := readUpdateLine_updateLine read
    have after : PatchSection.next (.ofChunks chunks) line =
        .ofChunks (act.perform dest chunks).2 := by
      rw [ofChunks] at bare ⊢
      simp only [PatchSection.next, bare]
      exact isLine.nextUpdate_eq dest
    rw [pre, after]
    exact currentSection_updateFile mode rfl

theorem length_dropReturnsBeforeNewlines_le :
    (dropReturnsBeforeNewlines text).length ≤ text.length := by
  fun_induction dropReturnsBeforeNewlines text with
  | case1 => rfl
  | case2 rest ih =>
    simp only [length_cons]
    omega
  | case3 c rest notPair ih =>
    simp only [length_cons]
    omega

theorem addFile_freeOfReturns_iff (path contents text : Text) (oneLine : '\n' ∉ text)
    (endsLine : contents.getLast? ≠ some '\r') :
    (Hunk.addFile path (contents ++ text ++ ['\n'])).FreeOfReturns ↔
    (Hunk.addFile path contents).FreeOfReturns ∧ text.getLast? ≠ some '\r' := by
  simp only [Hunk.FreeOfReturns, ← dropReturnsBeforeNewlines_eq_self_iff,
    ← stripCarriageReturn_eq_self_iff]
  rw [append_assoc, dropReturnsBeforeNewlines_append endsLine,
    dropReturnsBeforeNewlines_line text oneLine]
  constructor
  · intro same
    -- neither part grows, so each keeps its length
    have short := length_dropReturnsBeforeNewlines_le contents
    have lineShorter : (stripCarriageReturn text).length ≤ text.length := by
      rcases stripCarriageReturn_cases text with ⟨kept, -⟩ | dropped
      · rw [kept]
      · have := congrArg List.length dropped
        rw [length_append] at this
        omega
    have lengths := congrArg List.length same
    simp only [length_append] at lengths
    obtain ⟨contentsSame, lineSame⟩ := append_inj same (by omega)
    exact ⟨contentsSame, append_cancel_right lineSame⟩
  · rintro ⟨contentsSame, lineSame⟩
    rw [contentsSame, lineSame]

theorem LineStep.freeOfReturns_iff {state next : StreamingParserState} {line : Text}
    (step : LineStep state line next) (oneLine : '\n' ∉ line)
    (contentsEnd : ContentsEndLines state) : (∀ hunk ∈ next.hunks, hunk.FreeOfReturns) ↔
    (∀ hunk ∈ state.hunks, hunk.FreeOfReturns) ∧
    (state.currentSection.isContent line = true → line.getLast? ≠ some '\r') := by
  cases step with
  | start mode mark => simp [currentSection, mode, isContent]
  | environment envId rest mode mark =>
    simp [currentSection, mode, isContent]
  | afterEnd mode blank => simp [currentSection, mode, isContent]
  | header header started notEnded isHeader ensured =>
    rw [← headerText_currentSection] at isHeader
    have noContent : state.currentSection.isContent line = false := by
      simp [isContent, isHeader]
    rw [noContent]
    cases header with
    | endPatch => simp [enterSection]
    | addFile path =>
      simp [enterSection, Hunk.FreeOfReturns, or_imp, forall_and]
    | deleteFile path =>
      simp [enterSection, Hunk.FreeOfReturns, or_imp, forall_and]
    | updateFile path =>
      simp [enterSection, Hunk.FreeOfReturns, or_imp, forall_and]
  | added text path contents rest mode bare isAdded hunks =>
    have pre : state.currentSection = .add := by rw [currentSection, mode]
    rw [← headerText_currentSection, pre] at bare
    have content : state.currentSection.isContent line = true := by
      rw [pre, isContent, bare]
      rfl
    subst isAdded
    have textOneLine : '\n' ∉ text := fun mem => oneLine (mem_cons_of_mem _ mem)
    have endsLine : contents.getLast? ≠ some '\r' :=
      contentsEnd (.addFile path contents) (by rw [hunks]; simp)
    rw [content, hunks, List.forall_mem_append, List.forall_mem_singleton,
      List.forall_mem_append, List.forall_mem_singleton,
      addFile_freeOfReturns_iff path contents text textOneLine endsLine,
      getLast?_cons_ne_return_iff '+' text (by decide)]
    simp [and_assoc]
  | updated hunkLine path dest chunks rest act mode bare hunks read =>
    have pre := currentSection_updateFile mode hunks
    rw [← headerText_currentSection, pre] at bare
    have isLine := readUpdateLine_updateLine read
    have content : state.currentSection.isContent line =
        (!chunks.getLast?.any isEndOfFile && marksChunkLine line) := by
      rw [ofChunks] at bare pre
      simp [pre, isContent, bare]
    rw [content, hunks, List.forall_mem_append, List.forall_mem_singleton,
      List.forall_mem_append, List.forall_mem_singleton]
    simp only [Hunk.FreeOfReturns, isLine.freeOfReturns_iff dest, and_assoc,
      Bool.and_eq_true, Bool.not_eq_true', and_imp]

theorem feedLines_freeOfReturns_iff (state final : StreamingParserState) (lines : List Text)
    (oneLine : ∀ line ∈ lines, '\n' ∉ line) (contentsEnd : ContentsEndLines state)
    (run : state.feedLines lines = .ok final) : (∀ hunk ∈ final.hunks, hunk.FreeOfReturns) ↔
    (∀ hunk ∈ state.hunks, hunk.FreeOfReturns) ∧
    ∀ line ∈ state.currentSection.contentLines lines, ¬ ['\r', '\r'] <:+ line := by
  induction lines generalizing state with
  | nil =>
    cases run
    simp [PatchSection.contentLines]
  | cons line rest ih =>
    obtain ⟨mid, fed, later⟩ := feedLines_cons_inv state final line rest run
    obtain ⟨lineOneLine, restOneLine⟩ := forall_mem_cons.mp oneLine
    have step := processLine_step fed
    have strippedOneLine : '\n' ∉ stripCarriageReturn line :=
      fun mem => lineOneLine (mem_of_mem_stripCarriageReturn _ _ mem)
    have here := step.freeOfReturns_iff strippedOneLine contentsEnd
    have sectionAfter := step.currentSection_eq
    have sameSection : state.nextLine.currentSection = state.currentSection := rfl
    rw [sameSection, next_stripCarriageReturn] at sectionAfter
    rw [sameSection, isContent_stripCarriageReturn, ne_eq, getLast?_stripCarriageReturn_iff] at here
    rw [ih mid restOneLine (step.contentsEndLines contentsEnd) later, here, sectionAfter,
      PatchSection.contentLines, List.forall_mem_append, and_assoc]
    refine and_congr_right fun _ => and_congr_left fun _ => ?_
    cases state.currentSection.isContent line <;> simp

/-- Whenever the pieces of a text are parsed, parsing the text at once gives the
same hunks and environment id exactly if the text is more than an end line and no
line of it that stands for a line of a file has a second carriage return before
its newline. -/
theorem parsePatch_agrees_iff (deltas : List Text) (final : StreamingParserState)
    (streamed : parsePieces deltas = .ok final) :
    (∃ args, parsePatch deltas.flatten = .ok args ∧ args.hunks = final.hunks ∧
        args.environmentId = final.environmentId) ↔
      trim deltas.flatten ≠ endPatchMarker ∧
        ∀ line ∈ contentLines deltas.flatten, ¬ ['\r', '\r'] <:+ line := by
  obtain ⟨reached, run, finished⟩ := parsePieces_run deltas final streamed
  have free := feedLines_freeOfReturns_iff .initial reached _
    (splitNewlines_lines deltas.flatten).1 (fun hunk none => by cases none) run
  rw [parsePatch_agrees_iff_freeOfReturns deltas final streamed, finish_hunks finished, free]
  simp [StreamingParserState.initial, contentLines, currentSection]

/-- A patch with line ends of two characters that arrives in two pieces. -/
def piecesWithReturns : List Text :=
  ["*** Begin Patch\r\n*** Update File: f\r\n-o".toList, "ld\r\n*** End Patch\r\n".toList]

theorem pieces_with_returns_agree :
    ∃ args, parsePatch piecesWithReturns.flatten = .ok args ∧
      args.hunks = [.updateFile ['f'] none [⟨none, ["old".toList], [], [], false⟩]] ∧
      args.environmentId = none := by
  exact (parsePatch_agrees_iff piecesWithReturns
    ⟨.endedPatch, [.updateFile ['f'] none [⟨none, ["old".toList], [], [], false⟩]], none, 4⟩
    (by decide)).mpr (by decide)

/-- A removed line that ends in two carriage returns before its newline. -/
def doubledReturn : Text :=
  "*** Begin Patch\n*** Update File: f\n-old\r\r\n*** End Patch".toList

/-- The doubled carriage return is read once in pieces and not at all at once; an
end line alone is a patch in pieces and none at once. -/
theorem doubled_return_and_lone_end_diverge :
    parsePieces [doubledReturn] = .ok ⟨.endedPatch,
        [.updateFile ['f'] none [⟨none, ["old\r".toList], [], [], false⟩]], none, 4⟩ ∧
      (parsePatch doubledReturn).map ApplyPatchArgs.hunks =
        .ok [.updateFile ['f'] none [⟨none, ["old".toList], [], [], false⟩]] ∧
      parsePieces [endPatchMarker] = .ok ⟨.endedPatch, [], none, 1⟩ ∧
      parsePatch endPatchMarker = .error .firstLine := by
  decide

end CodexFormal.Patch
