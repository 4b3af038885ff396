import CodexFormal.Foundation.Attempt
import CodexFormal.Patch.FileSystem
import CodexFormal.Patch.FileUpdate

/-!
# Applying hunks to files

The hunks of a patch are applied one after the other and the first failure ends
the run.  What was committed until then is recorded in a delta, which is marked
inexact as soon as the record may not be what the file system holds.
-/

set_option autoImplicit false

namespace CodexFormal.Patch

open Foundation
open Foundation.Attempt

/-- What the code asks of paths.  `directories` are those that creating a
directory with its parents makes. -/
structure PathOperations where
  join : PathUri → Text → Option PathUri
  parent : PathUri → Option PathUri
  directories : PathUri → List PathUri
  inferredNativePathString : PathUri → Text

inductive ApplyError where
  | message (text : Text)
  | invalidPath (path : Text)
  | io (context : Text) (kind : ErrorKind)
  | update (error : ApplyPatchError)
deriving DecidableEq, Repr

structure AffectedPaths where
  added : List Text
  modified : List Text
  deleted : List Text
deriving DecidableEq, Repr

structure ApplyState where
  fileSystem : FileSystem
  delta : AppliedPatchDelta

abbrev Applying := Attempt ApplyState ApplyError

def callFileSystem {Value : Type} (operation : FileSystem → Value × FileSystem) : Applying Value :=
  modifyGet fun state =>
    ((operation state.fileSystem).1, { state with fileSystem := (operation state.fileSystem).2 })

def updateDelta (change : AppliedPatchDelta → AppliedPatchDelta) : Applying Unit :=
  modify fun state => { state with delta := change state.delta }

/-- The delta stays exact only where the condition holds. -/
def keepExactIf (condition : Bool) : Applying Unit :=
  updateDelta fun delta => { delta with exact := delta.exact && condition }

def pushChange (path : PathUri) (change : AppliedPatchFileChange) : Applying Unit :=
  updateDelta fun delta => { delta with changes := delta.changes ++ [⟨path, change⟩] }

/-- The change that a move recorded first gives way to the whole move. -/
def replaceLastChange (path : PathUri) (change : AppliedPatchFileChange) : Applying Unit :=
  updateDelta fun delta => { delta with changes := delta.changes.dropLast ++ [⟨path, change⟩] }

section Operations

variable (paths : PathOperations) (tape : FaultTape)

/-- A description of what failed, followed by the native form of the path. -/
def describeFailure (description : String) (path : PathUri) : Text :=
  description.toList ++ paths.inferredNativePathString path

def noteExistingPathDeltaSupport (path : PathUri) : Applying Unit := do
  match ← callFileSystem (FileSystem.getMetadata tape path) with
  | .ok metadata => keepExactIf (metadata.isFile && !metadata.isSymlink)
  | .error .notFound => pure ()
  | .error .other => keepExactIf false

variable (path : PathUri)

def readOptionalFileTextForDelta : Applying (Option Text) := do
  noteExistingPathDeltaSupport tape path
  match ← callFileSystem (FileSystem.readFileText tape path) with
  | .ok content => pure (some content)
  | .error .notFound => pure none
  | .error .other => do
      keepExactIf false
      pure none

def ensureNotDirectory (description : String) (path : PathUri) : Applying Unit := do
  match ← callFileSystem (FileSystem.getMetadata tape path) with
  | .ok metadata =>
    if metadata.isDirectory then throw (.io (describeFailure paths description path) .other)
    else pure ()
  | .error kind => throw (.io (describeFailure paths description path) kind)

def removeFailureWasSideEffectFree (expectedContent : Option Text) : Applying Bool :=
  match expectedContent with
  | some expected => do
      match ← callFileSystem (FileSystem.readFileText tape path) with
      | .ok content => pure (content == expected)
      | .error _ => pure false
  | none => pure false

def createParentDirectories (path : PathUri) : Applying (Except ErrorKind Unit) :=
  match paths.parent path with
  | some parent => callFileSystem (FileSystem.createDirectories tape (paths.directories parent))
  | none => pure (.ok ())

def writeFileWithMissingParentRetry (content : Text) : Applying (Except ApplyError Unit) := do
  match ← callFileSystem (FileSystem.writeFile tape path content) with
  | .error .notFound => do
      match ← createParentDirectories paths tape path with
      | .error kind =>
        pure (.error
          (.io (describeFailure paths "Failed to create parent directories for " path) kind))
      | .ok _ => do
          let second ← callFileSystem (FileSystem.writeFile tape path content)
          pure (second.mapError (.io (describeFailure paths "Failed to write file " path)))
  | first => pure (first.mapError (.io (describeFailure paths "Failed to write file " path)))

/-- A failed write can have changed its target, so the delta is inexact after it. -/
def tryWrite (written : Except ApplyError Unit) : Applying Unit :=
  match written with
  | .ok _ => pure ()
  | .error error => do
      keepExactIf false
      throw error

/-- Remove a file that is not a directory.  After a failed remove the delta stays
exact only where the file still has the expected content. -/
def removeFile (description : String) (path : PathUri) (expectedContent : Option Text) :
    Applying Unit := do
  ensureNotDirectory paths tape description path
  match ← callFileSystem (FileSystem.remove tape path) with
  | .ok _ => pure ()
  | .error kind => do
      let unchanged ← removeFailureWasSideEffectFree tape path expectedContent
      keepExactIf unchanged
      throw (.io (describeFailure paths description path) kind)

def deriveNewContentsFromChunks (mode : ApplyPatchFileUpdateMode) (path : PathUri)
    (chunks : List UpdateFileChunk) : Applying (Text × Text) := do
  match ← callFileSystem (FileSystem.readFileText tape path) with
  | .error kind =>
    throw (.io (describeFailure paths "Failed to read file to update " path) kind)
  | .ok original =>
    match deriveNewContents mode (paths.inferredNativePathString path) chunks original with
    | .error error => throw (.update error)
    | .ok newContents => pure (original, newContents)

def resolve (cwd : PathUri) (path : Text) : Applying PathUri :=
  match paths.join cwd path with
  | some uri => pure uri
  | none => throw (.invalidPath path)

def applyAddFile (contents : Text) : Applying Unit := do
  let overwritten ← readOptionalFileTextForDelta tape path
  tryWrite (← writeFileWithMissingParentRetry paths tape path contents)
  pushChange path (.add contents overwritten)

def applyDeleteFile : Applying Unit := do
  noteExistingPathDeltaSupport tape path
  let deletedContent := Except.toOption (← callFileSystem (FileSystem.readFileText tape path))
  keepExactIf deletedContent.isSome
  removeFile paths tape "Failed to delete file " path deletedContent
  match deletedContent with
  | some content => pushChange path (.delete content)
  | none => pure ()

/-- The destination is written and recorded as added before the original is
removed, so that a failed remove leaves a record of what was written. -/
def applyMove (cwd path : PathUri) (movePath original newContents : Text) : Applying Unit := do
  let destination ← resolve paths cwd movePath
  let overwritten ← readOptionalFileTextForDelta tape destination
  tryWrite (← writeFileWithMissingParentRetry paths tape destination newContents)
  pushChange destination (.add newContents overwritten)
  removeFile paths tape "Failed to remove original " path (some original)
  replaceLastChange path (.update (some destination) original overwritten newContents)

def applyUpdateInPlace (original newContents : Text) : Applying Unit := do
  let written ← callFileSystem (FileSystem.writeFile tape path newContents)
  tryWrite (written.mapError (.io (describeFailure paths "Failed to write file " path)))
  pushChange path (.update none original none newContents)

variable (mode : ApplyPatchFileUpdateMode)

def applyUpdateFile (cwd path : PathUri)
    (movePath : Option Text) (chunks : List UpdateFileChunk) : Applying Unit := do
  noteExistingPathDeltaSupport tape path
  let (original, newContents) ← deriveNewContentsFromChunks paths tape mode path chunks
  match movePath with
  | some destination => applyMove paths tape cwd path destination original newContents
  | none => applyUpdateInPlace paths tape path original newContents

def applyHunk (cwd : PathUri) (hunk : Hunk)
    (affected : AffectedPaths) : Applying AffectedPaths := do
  let path ← resolve paths cwd hunk.sourcePath
  match hunk with
  | .addFile _ contents => do
      applyAddFile paths tape path contents
      pure { affected with added := affected.added ++ [hunk.path] }
  | .deleteFile _ => do
      applyDeleteFile paths tape path
      pure { affected with deleted := affected.deleted ++ [hunk.path] }
  | .updateFile _ movePath chunks => do
      applyUpdateFile paths tape mode cwd path movePath chunks
      pure { affected with modified := affected.modified ++ [hunk.path] }

def applyHunks (mode : ApplyPatchFileUpdateMode) (cwd : PathUri) :
    List Hunk → AffectedPaths → Applying AffectedPaths
  | [], affected => pure affected
  | hunk :: rest, affected => do
      applyHunks mode cwd rest (← applyHunk paths tape mode cwd hunk affected)

def applyHunksToFiles (cwd : PathUri) (hunks : List Hunk) : Applying AffectedPaths :=
  if hunks.isEmpty then throw (.message "No files were modified.".toList)
  else applyHunks paths tape mode cwd hunks ⟨[], [], []⟩

end Operations

end CodexFormal.Patch
