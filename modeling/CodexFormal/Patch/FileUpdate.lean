import CodexFormal.Patch.Hunk
import CodexFormal.Patch.SeekSequence
import CodexFormal.Patch.SourceFile

/-!
# The new contents of an updated file

The chunks of an update are located in the file one after the other and turned
into replacements of line ranges, which are then applied to the lines.
-/

set_option autoImplicit false

namespace CodexFormal.Patch

open Foundation

/-- How an update fails.  A panic is not an error value of the source; it stands
for a vector index out of range. -/
inductive ApplyPatchError where
  | computeReplacements (message : Text)
  | panicked
deriving DecidableEq, Repr

def contextNotFound (contextLine path : Text) : ApplyPatchError :=
  .computeReplacements
    ("Failed to find context '".toList ++ contextLine ++ "' in ".toList ++ path)

variable (path : Text)

def linesNotFound (oldLines : List Text) : ApplyPatchError :=
  .computeReplacements
    ("Failed to find expected lines in ".toList ++ path ++ ":\n".toList ++
      joinWithNewlines oldLines)

section Locate

variable (mode : ApplyPatchFileUpdateMode) (originalLines : List Text)

/-- The cursor after the context line of a chunk. -/
def seekContext (path : Text) (chunk : UpdateFileChunk) (lineIndex : Nat) :
    Except ApplyPatchError Nat :=
  match chunk.changeContext with
  | none => .ok lineIndex
  | some contextLine =>
    match seekSequence originalLines [contextLine] lineIndex false mode with
    | some index => .ok (index + 1)
    | none => .error (contextNotFound contextLine path)

/-- Where a chunk without old lines inserts.  The mode that normalises keeps an
empty last line last. -/
def insertionIndex : Nat :=
  match mode with
  | .normalizeToLf =>
    if originalLines.getLast? = some [] then originalLines.length - 1
    else originalLines.length
  | .preserveLineEndings => originalLines.length

/-- A located chunk: the cursor from which it was looked for, where it starts, the
old lines that were looked for, and the new lines that take their place. -/
structure Located where
  lineIndex : Nat
  startIndex : Nat
  pattern : List Text
  newSlice : List Text
deriving DecidableEq, Repr

def dropTrailingEmpty (lines : List Text) : List Text :=
  if lines.getLast? = some [] then lines.dropLast else lines

/-- Look for the old lines; where they end in an empty line that is not found,
look again without it. -/
def locateOldLines (chunk : UpdateFileChunk) (lineIndex : Nat) : Option Located :=
  match seekSequence originalLines chunk.oldLines lineIndex chunk.isEndOfFile mode with
  | some start => some ⟨lineIndex, start, chunk.oldLines, chunk.newLines⟩
  | none =>
    if chunk.oldLines.getLast? = some [] then
      (seekSequence originalLines chunk.oldLines.dropLast lineIndex
        chunk.isEndOfFile mode).map fun start =>
          ⟨lineIndex, start, chunk.oldLines.dropLast, dropTrailingEmpty chunk.newLines⟩
    else none

/-- What becomes of a chunk: without old lines it inserts, otherwise it is located. -/
inductive Placement where
  | insertion (index : Nat) (newLines : List Text)
  | region (chunk : UpdateFileChunk) (located : Located)
deriving DecidableEq, Repr

/-- The chunks are placed in order.  Only a located chunk moves the cursor. -/
def placeChunks (path : Text) : List UpdateFileChunk → Nat → Except ApplyPatchError (List Placement)
  | [], _ => .ok []
  | chunk :: rest, lineIndex =>
    match seekContext mode originalLines path chunk lineIndex with
    | .error error => .error error
    | .ok lineIndex =>
      if chunk.oldLines.isEmpty then
        (placeChunks path rest lineIndex).map fun later =>
          .insertion (insertionIndex mode originalLines) chunk.newLines :: later
      else
        match locateOldLines mode originalLines chunk lineIndex with
        | none => .error (linesNotFound path chunk.oldLines)
        | some located =>
          (placeChunks path rest (located.startIndex + located.pattern.length)).map
            fun later => .region chunk located :: later

end Locate

def gapReplacement (located : Located) (oldStart oldStop newStart newStop : Nat) :
    List Replacement :=
  if oldStart ≠ oldStop ∨ newStart ≠ newStop then
    [⟨located.startIndex + oldStart, oldStop - oldStart,
      (located.newSlice.take newStop).drop newStart⟩]
  else []

/-- The replacements between the context lines of a located chunk.  The walk
over the context pairs stops at the first pair outside the located lines. -/
def replacementsBetween (located : Located) : List (Nat × Nat) → Nat → Nat → List Replacement
  | [], oldStart, newStart =>
    gapReplacement located oldStart located.pattern.length newStart located.newSlice.length
  | (oldContext, newContext) :: rest, oldStart, newStart =>
    if located.pattern.length ≤ oldContext ∨ located.newSlice.length ≤ newContext then
      gapReplacement located oldStart located.pattern.length newStart located.newSlice.length
    else
      gapReplacement located oldStart oldContext newStart newContext ++
        replacementsBetween located rest (oldContext + 1) (newContext + 1)

variable (mode : ApplyPatchFileUpdateMode)

def Placement.replacements : Placement → List Replacement
  | insertion index newLines => [⟨index, 0, newLines⟩]
  | region chunk located =>
    match mode with
    | .normalizeToLf => [⟨located.startIndex, located.pattern.length, located.newSlice⟩]
    | .preserveLineEndings => replacementsBetween located chunk.contextLineIndices 0 0

/-- The replacements by start; the sort is stable. -/
def computeReplacements (originalLines : List Text) (path : Text) (chunks : List UpdateFileChunk) :
    Except ApplyPatchError (List Replacement) :=
  (placeChunks mode originalLines path chunks 0).map fun placements =>
    (placements.flatMap (Placement.replacements mode)).insertionSort Edit.StartsNoLater

variable (lines : List Text)

/-- The old lines go one by one while there is one at the start; inserting past
the end is the panic of the source. -/
def applyReplacement (replacement : Replacement) : Option (List Text) :=
  let kept := (fun lines => lines.eraseIdx replacement.startIndex)^[replacement.oldLen] lines
  if replacement.newItems = [] ∨ replacement.startIndex ≤ kept.length then
    some (kept.take replacement.startIndex ++ replacement.newItems ++
      kept.drop replacement.startIndex)
  else none

/-- The last replacement first, so that the earlier ones keep their place. -/
def applyReplacements (replacements : List Replacement) : Option (List Text) :=
  replacements.reverse.foldlM applyReplacement lines

variable (contents : Text)

/-- The lines of a split; the empty piece after a final newline goes. -/
def splitOriginalLines : List Text :=
  dropTrailingEmpty (splitPieces contents)

def ensureFinalEmpty : List Text :=
  if lines.getLast? = some [] then lines else lines ++ [[]]

variable (chunks : List UpdateFileChunk)

def deriveNormalized (contents : Text) : Except ApplyPatchError Text :=
  match computeReplacements .normalizeToLf (splitOriginalLines contents) path chunks with
  | .error error => .error error
  | .ok replacements =>
    match applyReplacements (splitOriginalLines contents) replacements with
    | none => .error .panicked
    | some newLines => .ok (joinWithNewlines (ensureFinalEmpty newLines))

def derivePreserving (contents : Text) : Except ApplyPatchError Text :=
  let sourceFile := SourceFile.parse contents
  match computeReplacements .preserveLineEndings sourceFile.lineTexts path chunks with
  | .error error => .error error
  | .ok replacements =>
    match sourceFile.applyReplacements replacements with
    | none => .error .panicked
    | some updated => .ok updated.intoContents

def deriveNewContents (path : Text)
    (chunks : List UpdateFileChunk) (contents : Text) : Except ApplyPatchError Text :=
  match mode with
  | .normalizeToLf => deriveNormalized path chunks contents
  | .preserveLineEndings => derivePreserving path chunks contents

end CodexFormal.Patch
