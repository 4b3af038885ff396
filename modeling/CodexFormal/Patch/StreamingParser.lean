import CodexFormal.Patch.Hunk

/-!
# The streaming patch parser

The parser takes a patch text in pieces, cuts it into lines and reads each line
in the light of the section it is in.  What a line of an update section asks for
is read first and carried out then.
-/

set_option autoImplicit false

namespace CodexFormal.Patch

def beginPatchMarker : Text := "*** Begin Patch".toList
def endPatchMarker : Text := "*** End Patch".toList
def addFileMarker : Text := "*** Add File: ".toList
def deleteFileMarker : Text := "*** Delete File: ".toList
def updateFileMarker : Text := "*** Update File: ".toList
def moveToMarker : Text := "*** Move to: ".toList
def eofMarker : Text := "*** End of File".toList
def changeContextMarker : Text := "@@ ".toList
def emptyChangeContextMarker : Text := "@@".toList
def environmentIdMarker : Text := "*** Environment ID:".toList

inductive ParseError where
  | invalidPatch (message : Text)
  | invalidHunk (message : Text) (lineNumber : Nat)
deriving DecidableEq, Repr

namespace ParseError

def firstLine : ParseError :=
  invalidPatch "The first line of the patch must be '*** Begin Patch'".toList

def lastLine : ParseError :=
  invalidPatch "The last line of the patch must be '*** End Patch'".toList

def notAHunkHeader (trimmed : Text) (lineNumber : Nat) : ParseError :=
  invalidHunk ("'".toList ++ trimmed ++ ("' is not a valid hunk header. Valid hunk headers: " ++
    "'*** Add File: \x7bpath\x7d', '*** Delete File: \x7bpath\x7d', " ++
    "'*** Update File: \x7bpath\x7d'").toList) lineNumber

def unexpectedLine (line : Text) (lineNumber : Nat) : ParseError :=
  invalidHunk ("Unexpected line found in update hunk: '".toList ++ line ++
    ("'. Every line should start with ' ' (context line), '+' (added line), " ++
      "or '-' (removed line)").toList) lineNumber

def expectedContextMarker (line : Text) (lineNumber : Nat) : ParseError :=
  invalidHunk ("Expected update hunk to start with a @@ context marker, got: '".toList ++ line ++
    "'".toList) lineNumber

def noLines (lineNumber : Nat) : ParseError :=
  invalidHunk "Update hunk does not contain any lines".toList lineNumber

def emptyUpdate (path : Text) (lineNumber : Nat) : ParseError :=
  invalidHunk ("Update file hunk for path '".toList ++ path ++ "' is empty".toList) lineNumber

end ParseError

inductive StreamingParserMode where
  | notStarted
  | startedPatch
  | addFile
  | deleteFile
  | updateFile (hunkLineNumber : Nat)
  | endedPatch
deriving DecidableEq, Repr

structure StreamingParserState where
  mode : StreamingParserMode
  hunks : List Hunk
  environmentId : Option Text
  lineNumber : Nat
deriving DecidableEq, Repr

structure StreamingPatchParser where
  lineBuffer : Text
  state : StreamingParserState
deriving DecidableEq, Repr

def StreamingParserState.initial : StreamingParserState := ⟨.notStarted, [], none, 0⟩

def StreamingPatchParser.initial : StreamingPatchParser := ⟨[], .initial⟩

inductive HunkHeader where
  | endPatch
  | addFile (path : Text)
  | deleteFile (path : Text)
  | updateFile (path : Text)
deriving DecidableEq, Repr

def hunkHeader (trimmed : Text) : Option HunkHeader :=
  if trimmed = endPatchMarker then some .endPatch
  else match stripPrefix trimmed addFileMarker with
    | some path => some (.addFile path)
    | none =>
      match stripPrefix trimmed deleteFileMarker with
      | some path => some (.deleteFile path)
      | none => (stripPrefix trimmed updateFileMarker).map .updateFile

namespace StreamingParserState

def lastChunkHasNoLines (chunks : List UpdateFileChunk) : Bool :=
  chunks.getLast?.any UpdateFileChunk.hasNoLines

variable (state : StreamingParserState)

def ensureUpdateHunkIsNotEmpty (line : Text) : Except ParseError Unit :=
  match state.hunks.getLast? with
  | some (.updateFile path _ chunks) =>
    match chunks.isEmpty, state.mode with
    | true, .updateFile hunkLineNumber => .error (.emptyUpdate path hunkLineNumber)
    | _, _ =>
      if lastChunkHasNoLines chunks then
        if line = endPatchMarker then .error (.noLines state.lineNumber)
        else .error (.unexpectedLine line state.lineNumber)
      else .ok ()
  | _ => .ok ()

def enterSection (state : StreamingParserState) : HunkHeader → StreamingParserState
  | .endPatch => { state with mode := .endedPatch }
  | .addFile path =>
    { state with mode := .addFile, hunks := state.hunks ++ [.addFile path []] }
  | .deleteFile path =>
    { state with mode := .deleteFile, hunks := state.hunks ++ [.deleteFile path] }
  | .updateFile path =>
    { state with
      mode := .updateFile state.lineNumber
      hunks := state.hunks ++ [.updateFile path none []] }

def readEnvironmentId (environmentId : Text) : Except ParseError StreamingParserState :=
  if state.environmentId.isSome then
    .error (.invalidPatch
      "apply_patch environment_id cannot be specified more than once".toList)
  else if trim environmentId = [] then
    .error (.invalidPatch "apply_patch environment_id cannot be empty".toList)
  else .ok { state with environmentId := some (trim environmentId) }

def handleHunkHeadersAndEndPatch (trimmed : Text) :
    Except ParseError (Option StreamingParserState) :=
  match (if state.mode = .startedPatch then stripPrefix trimmed environmentIdMarker else none) with
  | some environmentId => (state.readEnvironmentId environmentId).map some
  | none =>
    match hunkHeader trimmed with
    | none => .ok none
    | some header =>
      (state.ensureUpdateHunkIsNotEmpty trimmed).map fun _ => some (state.enterSection header)

end StreamingParserState

inductive UpdateAction where
  | skip
  | moveTo (path : Text)
  | startChunk (context : Option Text)
  | endOfFile
  | contextLine (text : Text)
  | addedLine (text : Text)
  | removedLine (text : Text)
deriving DecidableEq, Repr

def changeLastChunk (change : UpdateFileChunk → UpdateFileChunk)
    (chunks : List UpdateFileChunk) : List UpdateFileChunk :=
  match chunks.getLast? with
  | none => [change .empty]
  | some last => chunks.dropLast ++ [change last]

def UpdateAction.perform (action : UpdateAction) (movePath : Option Text)
    (chunks : List UpdateFileChunk) : Option Text × List UpdateFileChunk :=
  match action with
  | skip => (movePath, chunks)
  | moveTo path => (some path, chunks)
  | startChunk context => (movePath, chunks ++ [{ UpdateFileChunk.empty with changeContext :=
    context }])
  | endOfFile =>
    (movePath, if chunks.isEmpty then chunks
      else changeLastChunk (fun chunk => { chunk with isEndOfFile := true }) chunks)
  | contextLine text => (movePath, changeLastChunk (·.pushContextLine text) chunks)
  | addedLine text => (movePath, changeLastChunk (·.pushNewLine text) chunks)
  | removedLine text => (movePath, changeLastChunk (·.pushOldLine text) chunks)

def startsChunk (updateLine : Text) : Bool :=
  updateLine == emptyChangeContextMarker || changeContextMarker.isPrefixOf updateLine

def readChunkLine (chunks : List UpdateFileChunk) (lineNumber : Nat) (line : Text) :
    Except ParseError UpdateAction :=
  match line with
  | [] => .ok (.contextLine [])
  | c :: text =>
    if c = ' ' then .ok (.contextLine text)
    else if c = '+' then .ok (.addedLine text)
    else if c = '-' then .ok (.removedLine text)
    else if chunks.getLast?.any (fun chunk => !chunk.hasNoLines) then
      .error (.expectedContextMarker line lineNumber)
    else .error (.unexpectedLine line lineNumber)

def readUpdateLine (movePath : Option Text) (chunks : List UpdateFileChunk) (lineNumber : Nat)
    (line : Text) : Except ParseError UpdateAction :=
  let updateLine := trimEnd line
  let ended := chunks.getLast?.any UpdateFileChunk.isEndOfFile
  if ended && updateLine.isEmpty then .ok .skip
  else if ended && !startsChunk updateLine then
    .error (.expectedContextMarker line lineNumber)
  else
    match (if chunks.isEmpty && movePath.isNone then stripPrefix updateLine moveToMarker
      else none) with
    | some path => .ok (.moveTo path)
    | none =>
      if startsChunk updateLine && StreamingParserState.lastChunkHasNoLines chunks then
        .error (.unexpectedLine line lineNumber)
      else if updateLine = emptyChangeContextMarker then .ok (.startChunk none)
      else
        match stripPrefix updateLine changeContextMarker with
        | some context => .ok (.startChunk (some context))
        | none =>
          if updateLine = eofMarker then
            if StreamingParserState.lastChunkHasNoLines chunks then
              .error (.noLines lineNumber)
            else .ok .endOfFile
          else readChunkLine chunks lineNumber line

namespace StreamingParserState

variable (state : StreamingParserState) (line : Text)

def processUpdateLine : Except ParseError StreamingParserState :=
  match state.hunks.getLast? with
  | some (.updateFile path movePath chunks) =>
    (readUpdateLine movePath chunks state.lineNumber line).map fun action =>
      let (movePath, chunks) := action.perform movePath chunks
      { state with hunks := state.hunks.dropLast ++ [.updateFile path movePath chunks] }
  | _ => .error (.unexpectedLine line state.lineNumber)

def processAddLine : Except ParseError StreamingParserState :=
  match stripPrefix line ['+'], state.hunks.getLast? with
  | some lineToAdd, some (.addFile path contents) =>
    .ok { state with
      hunks := state.hunks.dropLast ++ [.addFile path (contents ++ lineToAdd ++ ['\n'])] }
  | _, _ => .error (.notAHunkHeader (trim line) state.lineNumber)

/-- A header takes precedence over what the section makes of the line. -/
def orHeader (trimmed : Text) (otherwise : Except ParseError StreamingParserState) :
    Except ParseError StreamingParserState :=
  match state.handleHunkHeadersAndEndPatch trimmed with
  | .error error => .error error
  | .ok (some next) => .ok next
  | .ok none => otherwise

def processLine : Except ParseError StreamingParserState :=
  match state.mode with
  | .notStarted =>
    if trim line = beginPatchMarker then .ok { state with mode := .startedPatch }
    else .error .firstLine
  | .startedPatch =>
    state.orHeader (trim line) (.error (.notAHunkHeader (trim line) state.lineNumber))
  | .addFile => state.orHeader (trim line) (state.processAddLine line)
  | .deleteFile =>
    state.orHeader (trim line) (.error (.notAHunkHeader (trim line) state.lineNumber))
  | .updateFile _ => state.orHeader (trimEnd line) (state.processUpdateLine line)
  | .endedPatch => if trim line = [] then .ok state else .error .lastLine

def nextLine : StreamingParserState :=
  { state with lineNumber := state.lineNumber + 1 }

end StreamingParserState

namespace StreamingPatchParser

variable (parser : StreamingPatchParser)

def pushChar (c : Char) : Except ParseError StreamingPatchParser :=
  if c = '\n' then
    (parser.state.nextLine.processLine (stripCarriageReturn parser.lineBuffer)).map fun state =>
      ⟨[], state⟩
  else .ok { parser with lineBuffer := parser.lineBuffer ++ [c] }

/-- A run stops at its first error; the parser that the source still holds then is not kept. -/
def pushDelta (delta : Text) : Except ParseError StreamingPatchParser :=
  delta.foldlM pushChar parser

/-- The line that no newline ends.  An end of the patch is taken in any section. -/
def finishLine (state : StreamingParserState) (line : Text) :
    Except ParseError StreamingParserState :=
  if trim line = endPatchMarker then
    (state.ensureUpdateHunkIsNotEmpty (trim line)).map fun _ =>
      { state with mode := .endedPatch }
  else state.processLine line

def finish : Except ParseError StreamingParserState :=
  match (if parser.lineBuffer.isEmpty then .ok parser.state
    else finishLine parser.state.nextLine parser.lineBuffer) with
  | .error error => .error error
  | .ok state => if state.mode = .endedPatch then .ok state else .error .lastLine

/-- The state after a text that arrives in pieces. -/
def parsePieces (deltas : List Text) : Except ParseError StreamingParserState :=
  match deltas.foldlM pushDelta initial with
  | .error error => .error error
  | .ok parser => parser.finish

end StreamingPatchParser

structure ApplyPatchArgs where
  hunks : List Hunk
  patch : Text
  environmentId : Option Text
deriving DecidableEq, Repr

def checkStartAndEndLinesStrict (first last : Option Text) : Except ParseError Unit :=
  match first.map trim, last.map trim with
  | some first, some last =>
    if first = beginPatchMarker ∧ last = endPatchMarker then .ok ()
    else if first ≠ beginPatchMarker then .error .firstLine
    else .error .lastLine
  | some first, none => if first ≠ beginPatchMarker then .error .firstLine else .error .lastLine
  | none, _ => .error .lastLine

variable (lines : List Text)

def checkPatchBoundariesStrict : Except ParseError (List Text) :=
  (checkStartAndEndLinesStrict lines.head? lines.getLast?).map fun _ => lines

/-- Whether the lines stand between the marks of a here-document. -/
def isHeredoc : Bool :=
  (lines.head? == some "<<EOF".toList || lines.head? == some "<<'EOF'".toList ||
      lines.head? == some "<<\"EOF\"".toList) &&
    lines.getLast?.any ("EOF".toList.isSuffixOf ·) && decide (4 ≤ lines.length)

def checkPatchBoundariesLenient : Except ParseError (List Text) :=
  match checkPatchBoundariesStrict lines with
  | .ok lines => .ok lines
  | .error error =>
    if isHeredoc lines then checkPatchBoundariesStrict (lines.drop 1).dropLast
    else .error error

/-- The lines of the trimmed text are joined again and given to the streaming parser. -/
def parsePatch (patch : Text) : Except ParseError ApplyPatchArgs :=
  match checkPatchBoundariesLenient (textLines (trim patch)) with
  | .error error => .error error
  | .ok lines =>
    (StreamingPatchParser.parsePieces [joinWithNewlines lines]).map fun state =>
      ⟨state.hunks, joinWithNewlines lines, state.environmentId⟩

end CodexFormal.Patch
