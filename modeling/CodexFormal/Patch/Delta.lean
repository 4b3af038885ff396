import CodexFormal.Patch.Text

/-!
# The delta of an applied patch

Applying a patch records the textual changes it has committed, in order, and
whether that record is exact.  Replaying a delta on a map of text files is what
the record means.
-/

set_option autoImplicit false

namespace CodexFormal.Patch

universe u

/-- A path up to the identity of the source, which folds the case of Windows paths after
decoding: `text` stands for the whole class, so that equal paths are equal texts. -/
structure PathUri where
  text : Text
deriving DecidableEq, Repr

inductive AppliedPatchFileChange where
  | add (content : Text) (overwrittenContent : Option Text)
  | delete (content : Text)
  | update (movePath : Option PathUri) (oldContent : Text)
      (overwrittenMoveContent : Option Text) (newContent : Text)
deriving DecidableEq, Repr

structure AppliedPatchChange where
  path : PathUri
  change : AppliedPatchFileChange
deriving DecidableEq, Repr

structure AppliedPatchDelta where
  changes : List AppliedPatchChange
  exact : Bool
deriving DecidableEq, Repr

def AppliedPatchDelta.empty : AppliedPatchDelta := ⟨[], true⟩

section Replay

variable {Path : Type u} [DecidableEq Path] (locate : PathUri → Path) (files : Path → Option Text)

/-- A change writes its content, removes its path, or moves: the destination is
written before the source is removed. -/
def replayChange (change : AppliedPatchChange) : Path → Option Text :=
  match change.change with
  | .add content _ => Function.update files (locate change.path) (some content)
  | .delete _ => Function.update files (locate change.path) none
  | .update none _ _ newContent =>
    Function.update files (locate change.path) (some newContent)
  | .update (some movePath) _ _ newContent =>
    Function.update (Function.update files (locate movePath) (some newContent))
      (locate change.path) none

def replayChanges (changes : List AppliedPatchChange) : Path → Option Text :=
  changes.foldl (replayChange locate) files

/-- The change records what it found: overwritten and old contents are those of
the file map, a deleted or updated file exists, and a move changes the path. -/
def ConsistentChange (change : AppliedPatchChange) : Prop :=
  match change.change with
  | .add _ overwrittenContent => files (locate change.path) = overwrittenContent
  | .delete content => files (locate change.path) = some content
  | .update none oldContent _ _ => files (locate change.path) = some oldContent
  | .update (some movePath) oldContent overwrittenMoveContent _ =>
    files (locate change.path) = some oldContent ∧
      files (locate movePath) = overwrittenMoveContent ∧
        locate movePath ≠ locate change.path

end Replay

end CodexFormal.Patch
