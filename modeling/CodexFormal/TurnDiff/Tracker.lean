import CodexFormal.Foundation.FiniteMap
import CodexFormal.Patch.Delta
import Mathlib.Data.Char
import Mathlib.Data.List.Sort

/-!
# The turn diff tracker

The tracker follows committed patch deltas without rereading the workspace.
For every path it touches it keeps the content before the turn, the current
content, and where a moved file came from.  Path display, blob ids and the
line diff are third-party or separate code and enter as `DiffRendering`; the
iteration orders of the hash maps are arguments of `refreshUnifiedDiff`.
-/

set_option autoImplicit false

namespace CodexFormal.TurnDiff

open Foundation
open Patch

structure TrackedContent where
  content : Text
  revision : Nat
deriving DecidableEq, Repr

structure TrackedPath where
  environmentId : Text
  path : PathUri
deriving DecidableEq, Repr

structure DiffCacheKey where
  leftPath : TrackedPath
  leftRevision : Option Nat
  rightPath : TrackedPath
  rightRevision : Option Nat
deriving DecidableEq, Repr

structure DiffRendering where
  relativePathFrom : PathUri → PathUri → Option Text
  inferredNativePathString : PathUri → Text
  gitBlobOid : Text → Text
  /-- Old content, new content, old header, new header. -/
  unifiedDiff : Text → Text → Text → Text → Text

/-- The order in which the hash maps of the tracker are iterated. -/
structure MapOrder where
  baselinePaths : FiniteMap.Arrangement TrackedPath
  currentPaths : FiniteMap.Arrangement TrackedPath
  origins : FiniteMap.Arrangement (Sigma fun _ : TrackedPath => TrackedPath)

structure TurnDiffTracker where
  valid : Bool
  displayRootsByEnvironment : FiniteMap Text PathUri
  baselineByPath : FiniteMap TrackedPath TrackedContent
  currentByPath : FiniteMap TrackedPath TrackedContent
  originByCurrentPath : FiniteMap TrackedPath TrackedPath
  nextRevision : Nat
  renderedDiffs : FiniteMap DiffCacheKey (Option Text)
  unifiedDiff : Option Text

def zeroOid : Text := List.replicate 40 '0'
def devNull : Text := "/dev/null".toList
def regularFileMode : Text := "100644".toList

/-- `Vec::dedup`: of equal neighbours the first stays. -/
def dedup {α : Type} [DecidableEq α] : List α → List α
  | [] => []
  | [only] => [only]
  | first :: second :: rest =>
    if first = second then dedup (second :: rest)
    else first :: dedup (second :: rest)

namespace TurnDiffTracker

def new : TurnDiffTracker where
  valid := true
  displayRootsByEnvironment := ∅
  baselineByPath := ∅
  currentByPath := ∅
  originByCurrentPath := ∅
  nextRevision := 0
  renderedDiffs := ∅
  unifiedDiff := none

def withEnvironmentDisplayRoots (displayRoots : FiniteMap Text PathUri) : TurnDiffTracker :=
  { new with displayRootsByEnvironment := displayRoots }

variable (tracker : TurnDiffTracker)

def invalidate : TurnDiffTracker :=
  { tracker with valid := false, renderedDiffs := ∅, unifiedDiff := none }

variable (path : TrackedPath)

/-- In either of the maps. -/
def tracks : Bool :=
  (tracker.currentByPath.lookup path).isSome || (tracker.baselineByPath.lookup path).isSome

variable (content : Text)

def insertBaseline : TurnDiffTracker :=
  { tracker with
    baselineByPath := tracker.baselineByPath.insert path ⟨content, tracker.nextRevision⟩
    nextRevision := tracker.nextRevision + 1 }

def insertCurrent : TurnDiffTracker :=
  { tracker with
    currentByPath := tracker.currentByPath.insert path ⟨content, tracker.nextRevision⟩
    nextRevision := tracker.nextRevision + 1 }

/-- The content that a path had before it was first touched, if it had one. -/
def noteBaseline (content : Option Text) : TurnDiffTracker :=
  match content with
  | some content =>
    if tracker.tracks path then tracker else tracker.insertBaseline path content
  | none => tracker

def applyAdd (overwrittenContent : Option Text) : TurnDiffTracker :=
  ({ tracker with
      originByCurrentPath := tracker.originByCurrentPath.erase path
      }.noteBaseline path overwrittenContent).insertCurrent path content

def applyDelete : TurnDiffTracker :=
  -- the removed entry counts as tracked, so the baseline is noted first
  let noted := tracker.noteBaseline path (some content)
  { noted with
    currentByPath := noted.currentByPath.erase path
    originByCurrentPath := noted.originByCurrentPath.erase path }

def applyMove (sourcePath destPath : TrackedPath)
    (overwrittenMoveContent : Option Text) (newContent : Text) : TurnDiffTracker :=
  let noted := tracker.noteBaseline destPath overwrittenMoveContent
  let origin := (noted.originByCurrentPath.lookup sourcePath).getD sourcePath
  let moved :=
    { noted with
      currentByPath := noted.currentByPath.erase sourcePath
      originByCurrentPath := noted.originByCurrentPath.erase sourcePath
      }.insertCurrent destPath newContent
  { moved with
    originByCurrentPath :=
      if destPath ≠ origin then (moved.originByCurrentPath.erase destPath).insert destPath origin
      else moved.originByCurrentPath.erase destPath }

def applyUpdate (sourcePath : TrackedPath) (movePath : Option TrackedPath) (oldContent : Text)
    (overwrittenMoveContent : Option Text) (newContent : Text) : TurnDiffTracker :=
  let noted := tracker.noteBaseline sourcePath (some oldContent)
  match movePath with
  | some destPath => noted.applyMove sourcePath destPath overwrittenMoveContent newContent
  | none => noted.insertCurrent sourcePath newContent

def applyChange (environmentId : Text) (tracker : TurnDiffTracker)
    (change : AppliedPatchChange) : TurnDiffTracker :=
  let sourcePath : TrackedPath := ⟨environmentId, change.path⟩
  match change.change with
  | .add content overwrittenContent => tracker.applyAdd sourcePath content overwrittenContent
  | .delete content => tracker.applyDelete sourcePath content
  | .update movePath oldContent overwrittenMoveContent newContent =>
    tracker.applyUpdate sourcePath (movePath.map fun path => ⟨environmentId, path⟩)
      oldContent overwrittenMoveContent newContent

variable (rendering : DiffRendering)

def displayPath (path : TrackedPath) : Text :=
  let display :=
    ((tracker.displayRootsByEnvironment.lookup path.environmentId).bind fun root =>
      rendering.relativePathFrom path.path root).getD
        (rendering.inferredNativePathString path.path)
  if FiniteMap.size tracker.displayRootsByEnvironment > 1 ∧ path.environmentId ≠ [] then
    path.environmentId ++ ('/' :: display)
  else display

/-- The closure that `rename_pairs` filters the recorded origins with, and the
collection into a map. -/
def collectRename (pairs : FiniteMap TrackedPath TrackedPath)
    (entry : Sigma fun _ : TrackedPath => TrackedPath) : FiniteMap TrackedPath TrackedPath :=
  if entry.1 = entry.2 ∨ (tracker.currentByPath.lookup entry.2).isSome ∨
      (tracker.currentByPath.lookup entry.1).isNone ∨
      (tracker.baselineByPath.lookup entry.2).isNone ∨
      (tracker.baselineByPath.lookup entry.1).isSome then pairs
  else pairs.insert entry.2 entry.1

variable (order : MapOrder)

/-- The destination of every origin; of two destinations with one origin the
one that is iterated later. -/
def renamePairs : FiniteMap TrackedPath TrackedPath :=
  (order.origins.arrange tracker.originByCurrentPath.entries).foldl tracker.collectRename ∅

def sortedPaths : List TrackedPath :=
  dedup (List.insertionSort
    (fun left right =>
      tracker.displayPath rendering left ≤ tracker.displayPath rendering right)
    (order.baselinePaths.arrange tracker.baselineByPath.keys ++
      order.currentPaths.arrange tracker.currentByPath.keys))

/-- The loop over the sorted paths: which pairs of a left and a right path are
rendered. -/
def pairUp (renames : FiniteMap TrackedPath TrackedPath) (handled : List TrackedPath) :
    List TrackedPath → List (TrackedPath × TrackedPath)
  | [] => []
  | path :: rest =>
    if path ∈ handled then pairUp renames handled rest
    else if path ∈ FiniteMap.values renames then pairUp renames (path :: handled) rest
    else
      match renames.lookup path with
      | some dest => (path, dest) :: pairUp renames (dest :: path :: handled) rest
      | none => (path, path) :: pairUp renames (path :: handled) rest

def renderedPairs : List (TrackedPath × TrackedPath) :=
  pairUp (tracker.renamePairs order) [] (tracker.sortedPaths rendering order)

def forwardSlashes (text : Text) : Text :=
  text.map fun character => if character = '\\' then '/' else character

def renderDiff (leftPath : TrackedPath) (leftContent : Option Text) (rightPath : TrackedPath)
    (rightContent : Option Text) : Option Text :=
  if leftContent = rightContent then none
  else
    let leftDisplay := forwardSlashes (tracker.displayPath rendering leftPath)
    let rightDisplay := forwardSlashes (tracker.displayPath rendering rightPath)
    let leftOid := (leftContent.map rendering.gitBlobOid).getD zeroOid
    let rightOid := (rightContent.map rendering.gitBlobOid).getD zeroOid
    let mode : Text :=
      match leftContent, rightContent with
      | none, some _ => "new file mode ".toList ++ regularFileMode ++ ['\n']
      | some _, none => "deleted file mode ".toList ++ regularFileMode ++ ['\n']
      | _, _ => []
    let oldHeader := if leftContent.isSome then "a/".toList ++ leftDisplay else devNull
    let newHeader := if rightContent.isSome then "b/".toList ++ rightDisplay else devNull
    some ("diff --git a/".toList ++ leftDisplay ++ " b/".toList ++ rightDisplay ++ ['\n'] ++
      mode ++ "index ".toList ++ leftOid ++ "..".toList ++ rightOid ++ ['\n'] ++
      rendering.unifiedDiff (leftContent.getD []) (rightContent.getD []) oldHeader newHeader)

def appendDiff (aggregated : Text) : Option Text → Text
  | none => aggregated
  | some diff =>
    let joined := aggregated ++ diff
    if joined.getLast? = some '\n' then joined else joined ++ ['\n']

def renderPair
    (previous : FiniteMap DiffCacheKey (Option Text)) (pair : TrackedPath × TrackedPath) :
    DiffCacheKey × Option Text :=
  let left := tracker.baselineByPath.lookup pair.1
  let right := tracker.currentByPath.lookup pair.2
  let key : DiffCacheKey :=
    ⟨pair.1, left.map TrackedContent.revision, pair.2, right.map TrackedContent.revision⟩
  (key, (previous.lookup key).getD
    (tracker.renderDiff rendering pair.1 (left.map TrackedContent.content) pair.2
      (right.map TrackedContent.content)))

def refreshUnifiedDiff : TurnDiffTracker :=
  let rendered := (tracker.renderedPairs rendering order).map
    (tracker.renderPair rendering tracker.renderedDiffs)
  let aggregated := rendered.foldl (fun text entry => appendDiff text entry.2) []
  { tracker with
    renderedDiffs := rendered.foldl (fun cache entry => cache.insert entry.1 entry.2) ∅
    unifiedDiff := if aggregated = [] then none else some aggregated }

def trackDelta (environmentId : Text) (delta : AppliedPatchDelta) : TurnDiffTracker :=
  if !tracker.valid then tracker
  else if !delta.exact then tracker.invalidate
  else
    (delta.changes.foldl (applyChange environmentId) tracker).refreshUnifiedDiff rendering order

end TurnDiffTracker

end CodexFormal.TurnDiff
