import CodexFormal.Patch.Text

/-!
# Hunks

What a patch text is parsed into: one hunk for each file, and for an updated
file the chunks that say which of its lines change.
-/

set_option autoImplicit false

namespace CodexFormal.Patch

structure UpdateFileChunk where
  changeContext : Option Text
  oldLines : List Text
  newLines : List Text
  contextLineIndices : List (Nat × Nat)
  isEndOfFile : Bool
deriving DecidableEq, Repr

namespace UpdateFileChunk

/-- The default chunk: no context, no lines. -/
def empty : UpdateFileChunk := ⟨none, [], [], [], false⟩

variable (chunk : UpdateFileChunk) (line : Text)

/-- A context line stands on both sides, and its place on each is recorded. -/
def pushContextLine : UpdateFileChunk :=
  { chunk with
    contextLineIndices :=
      chunk.contextLineIndices ++ [(chunk.oldLines.length, chunk.newLines.length)]
    oldLines := chunk.oldLines ++ [line]
    newLines := chunk.newLines ++ [line] }

def pushNewLine : UpdateFileChunk :=
  { chunk with newLines := chunk.newLines ++ [line] }

def pushOldLine : UpdateFileChunk :=
  { chunk with oldLines := chunk.oldLines ++ [line] }

def hasNoLines : Bool :=
  chunk.oldLines.isEmpty && chunk.newLines.isEmpty

end UpdateFileChunk

inductive Hunk where
  | addFile (path contents : Text)
  | deleteFile (path : Text)
  | updateFile (path : Text) (movePath : Option Text) (chunks : List UpdateFileChunk)
deriving DecidableEq, Repr

namespace Hunk

/-- The path a hunk affects: the destination where the file moves. -/
def path : Hunk → Text
  | addFile path _ => path
  | deleteFile path => path
  | updateFile _ (some movePath) _ => movePath
  | updateFile path none _ => path

/-- The path a hunk starts from: an updated file is found under its old path. -/
def sourcePath : Hunk → Text
  | updateFile path _ _ => path
  | hunk => hunk.path

end Hunk

end CodexFormal.Patch
