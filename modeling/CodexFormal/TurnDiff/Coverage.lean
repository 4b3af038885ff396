import CodexFormal.TurnDiff.Tracker

/-!
# The turn diff reflects the files

A change touches one or two paths.  On every path it touches, the tracker
remembers the content the path had when it was first touched and the content
it has now; on every other path nothing has happened.  The pairs that are
rendered then lead from the files before the turn to the files after it.
-/

set_option autoImplicit false

namespace CodexFormal.TurnDiff

open Foundation FiniteMap
open Patch

abbrev Files := TrackedPath → Option Text

namespace TurnDiffTracker

def baselineAt (tracker : TurnDiffTracker) (path : TrackedPath) : Option Text :=
  (tracker.baselineByPath.lookup path).map TrackedContent.content

def currentAt (tracker : TurnDiffTracker) (path : TrackedPath) : Option Text :=
  (tracker.currentByPath.lookup path).map TrackedContent.content

variable (tracker : TurnDiffTracker)

theorem tracks_iff (path : TrackedPath) : tracker.tracks path = true ↔
    tracker.currentAt path ≠ none ∨ tracker.baselineAt path ≠ none := by
  simp [tracks, currentAt, baselineAt, Option.isSome_iff_ne_none]

variable (path other : TrackedPath)

theorem insertBaseline_baselineAt (content : Text) :
    (tracker.insertBaseline path content).baselineAt other =
    if other = path then some content else tracker.baselineAt other := by
  simp only [insertBaseline, baselineAt, lookup_insert_eq_ite]
  split <;> rfl

theorem insertCurrent_currentAt (content : Text) :
    (tracker.insertCurrent path content).currentAt other =
    if other = path then some content else tracker.currentAt other := by
  simp only [insertCurrent, currentAt, lookup_insert_eq_ite]
  split <;> rfl

variable (text : Option Text)

theorem noteBaseline_baselineAt : (tracker.noteBaseline path text).baselineAt other =
    if other = path ∧ tracker.tracks path = false then text else tracker.baselineAt other := by
  cases text with
  | none =>
    split
    next fresh =>
      obtain ⟨rfl, untracked⟩ := fresh
      have gone : ¬ (tracker.currentAt other ≠ none ∨ tracker.baselineAt other ≠ none) := by
        rw [← tracks_iff, untracked]
        exact Bool.false_ne_true
      show tracker.baselineAt other = none
      by_contra present
      exact gone (.inr present)
    · rfl
  | some text =>
    simp only [noteBaseline]
    by_cases known : tracker.tracks path
    · simp [known]
    · simp [known, insertBaseline_baselineAt]

theorem noteBaseline_currentByPath (path : TrackedPath) (text : Option Text) :
    (tracker.noteBaseline path text).currentByPath = tracker.currentByPath := by
  unfold noteBaseline
  split
  · split <;> rfl
  · rfl

theorem noteBaseline_currentAt :
    (tracker.noteBaseline path text).currentAt other = tracker.currentAt other := by
  simp [currentAt, noteBaseline_currentByPath]

structure Reflects (initial files : Files) (tracker : TurnDiffTracker) : Prop where
  baseline : ∀ path, tracker.tracks path = true → tracker.baselineAt path = initial path
  current : ∀ path, tracker.tracks path = true → tracker.currentAt path = files path
  untouched : ∀ path, tracker.tracks path = false → files path = initial path

theorem new_reflects (initial : Files) (displayRoots : FiniteMap Text PathUri) :
    (withEnvironmentDisplayRoots displayRoots).Reflects initial initial :=
  ⟨by simp [tracks, withEnvironmentDisplayRoots, new],
    by simp [tracks, withEnvironmentDisplayRoots, new], fun _ _ => rfl⟩

variable {initial files : Files} {tracker : TurnDiffTracker}

section

variable (reflects : tracker.Reflects initial files)

include reflects

/-- A change that notes the old content of the paths it touches, and follows
their new content, keeps the invariant. -/
theorem Reflects.touch (hit : TrackedPath → Prop)
    [DecidablePred hit] (after : TurnDiffTracker) (filesAfter : Files)
    (noted : ∀ path, after.baselineAt path =
      if hit path ∧ tracker.tracks path = false then files path else tracker.baselineAt path)
    (followed : ∀ path, after.currentAt path =
      if hit path then filesAfter path else tracker.currentAt path)
    (frame : ∀ path, ¬ hit path → filesAfter path = files path) :
    after.Reflects initial filesAfter := by
  have baselineAfter : ∀ path, hit path → after.baselineAt path = initial path := by
    intro path isHit
    rw [noted]
    cases known : tracker.tracks path with
    | true => simpa using reflects.baseline path known
    | false => simpa [isHit] using reflects.untouched path known
  have sameTracks : ∀ path, ¬ hit path → after.tracks path = tracker.tracks path := by
    intro path notTouched
    rw [Bool.eq_iff_iff, tracks_iff, tracks_iff, noted, followed]
    simp [notTouched]
  refine ⟨?_, ?_, ?_⟩
  · intro path known
    by_cases isHit : hit path
    · exact baselineAfter path isHit
    · rw [sameTracks path isHit] at known
      rw [noted]
      simpa [isHit] using reflects.baseline path known
  · intro path known
    rw [followed]
    by_cases isHit : hit path
    · rw [if_pos isHit]
    · rw [sameTracks path isHit] at known
      rw [if_neg isHit, frame path isHit]
      exact reflects.current path known
  · intro path unknown
    by_cases isHit : hit path
    · -- nothing is stored although the path was touched: it was and is gone
      have gone : ¬ (after.currentAt path ≠ none ∨ after.baselineAt path ≠ none) := by
        rw [← tracks_iff, unknown]
        exact Bool.false_ne_true
      simp only [not_or, not_not] at gone
      obtain ⟨noCurrent, noBaseline⟩ := gone
      rw [followed, if_pos isHit] at noCurrent
      rw [baselineAfter path isHit] at noBaseline
      rw [noCurrent, noBaseline]
    · rw [sameTracks path isHit] at unknown
      rw [frame path isHit]
      exact reflects.untouched path unknown

theorem applyAdd_reflects (path : TrackedPath) (text : Text) :
    (tracker.applyAdd path text (files path)).Reflects initial
    (Function.update files path (some text)) := by
  apply reflects.touch (fun other => other = path)
  · intro other
    show ((_ : TurnDiffTracker).noteBaseline path (files path)).baselineAt other = _
    rw [noteBaseline_baselineAt]
    by_cases same : other = path
    · subst same
      rfl
    · simp only [same, false_and, if_false]
      rfl
  · intro other
    rw [applyAdd, insertCurrent_currentAt]
    by_cases same : other = path
    · simp [same]
    · simp only [same, if_false, noteBaseline_currentAt]
      rfl
  · intro other ne
    exact Function.update_of_ne ne _ _

theorem applyDelete_reflects {path : TrackedPath} {text : Text} (found : files path = some text) :
    (tracker.applyDelete path text).Reflects initial (Function.update files path none) := by
  apply reflects.touch (fun other => other = path)
  · intro other
    show (tracker.noteBaseline path (some text)).baselineAt other = _
    rw [noteBaseline_baselineAt]
    by_cases same : other = path
    · subst same
      rw [found]
    · simp [same]
  · intro other
    simp only [applyDelete, currentAt, FiniteMap.lookup_erase_eq_ite, noteBaseline_currentByPath]
    by_cases same : other = path
    · simp [same]
    · simp [same]
  · intro other ne
    exact Function.update_of_ne ne _ _

theorem applyUpdate_reflects {path : TrackedPath} {oldText : Text}
    (prev : Option Text) (newText : Text) (found : files path = some oldText) :
    (tracker.applyUpdate path none oldText prev newText).Reflects initial
    (Function.update files path (some newText)) := by
  apply reflects.touch (fun other => other = path)
  · intro other
    show (tracker.noteBaseline path (some oldText)).baselineAt other = _
    rw [noteBaseline_baselineAt]
    by_cases same : other = path
    · subst same
      rw [found]
    · simp [same]
  · intro other
    rw [applyUpdate, insertCurrent_currentAt]
    by_cases same : other = path
    · simp [same]
    · simp [same, noteBaseline_currentAt]
  · intro other ne
    exact Function.update_of_ne ne _ _

omit reflects in
theorem applyMove_baselineAt (source dest other : TrackedPath)
    (prev : Option Text) (newText : Text) :
    (tracker.applyMove source dest prev newText).baselineAt other =
      (tracker.noteBaseline dest prev).baselineAt other :=
  rfl

omit reflects in
theorem applyMove_currentAt (source dest other : TrackedPath)
    (prev : Option Text) (newText : Text) :
    (tracker.applyMove source dest prev newText).currentAt other =
      if other = dest then some newText else if other = source then none
      else tracker.currentAt other := by
  simp only [applyMove, insertCurrent, currentAt, lookup_insert_eq_ite,
    FiniteMap.lookup_erase_eq_ite, noteBaseline_currentByPath]
  split
  · rfl
  · split <;> rfl

theorem applyMove_reflects {source dest : TrackedPath}
    (oldText newText : Text) (found : files source = some oldText) (moves : dest ≠ source) :
    (tracker.applyUpdate source (some dest) oldText (files dest) newText).Reflects
    initial (Function.update (Function.update files dest (some newText)) source none) := by
  apply reflects.touch (fun other => other = source ∨ other = dest)
  · intro other
    -- the two notes do not disturb each other
    have sameTracks : (tracker.noteBaseline source (some oldText)).tracks dest =
        tracker.tracks dest := by
      rw [Bool.eq_iff_iff, tracks_iff, tracks_iff, noteBaseline_currentAt, noteBaseline_baselineAt]
      simp [moves]
    rw [applyUpdate, applyMove_baselineAt, noteBaseline_baselineAt, sameTracks,
      noteBaseline_baselineAt]
    by_cases isDest : other = dest
    · subst isDest
      simp [moves]
    · by_cases isSource : other = source
      · subst isSource
        simp [isDest, found]
      · simp [isDest, isSource]
  · intro other
    rw [applyUpdate, applyMove_currentAt, noteBaseline_currentAt]
    by_cases isDest : other = dest
    · subst isDest
      simp [Function.update_of_ne moves]
    · by_cases isSource : other = source
      · subst isSource
        simp [isDest]
      · simp [isDest, isSource]
  · intro other ne
    rw [not_or] at ne
    rw [Function.update_of_ne ne.1, Function.update_of_ne ne.2]

theorem applyChange_reflects {environmentId : Text} {change : AppliedPatchChange}
    (agree : ConsistentChange (TrackedPath.mk environmentId) files change) :
    (applyChange environmentId tracker change).Reflects initial
    (replayChange (TrackedPath.mk environmentId) files change) := by
  obtain ⟨path, change⟩ := change
  cases change with
  | add text overwrittenContent =>
    have noted : files ⟨environmentId, path⟩ = overwrittenContent := agree
    subst noted
    exact applyAdd_reflects reflects ⟨environmentId, path⟩ text
  | delete text =>
    exact applyDelete_reflects reflects agree
  | update dest oldText movedOver newText =>
    cases dest with
    | none =>
      exact applyUpdate_reflects reflects movedOver newText agree
    | some dest =>
      obtain ⟨found, noted, moves⟩ := agree
      subst noted
      exact applyMove_reflects reflects oldText newText found moves

end

def ConsistentChanges (environmentId : Text) : Files → List AppliedPatchChange → Prop
  | _, [] => True
  | files, change :: rest =>
    ConsistentChange (TrackedPath.mk environmentId) files change ∧
      ConsistentChanges environmentId
        (replayChange (TrackedPath.mk environmentId) files change) rest

variable (environmentId : Text)

theorem applyChanges_reflects (changes : List AppliedPatchChange)
    (initial files : Files) (tracker : TurnDiffTracker) (reflects : tracker.Reflects initial files)
    (agree : ConsistentChanges environmentId files changes) :
    (changes.foldl (applyChange environmentId) tracker).Reflects initial
    (replayChanges (TrackedPath.mk environmentId) files changes) := by
  induction changes generalizing files tracker with
  | nil => exact reflects
  | cons change rest ih =>
    obtain ⟨first, later⟩ := agree
    exact ih _ _ (applyChange_reflects reflects first) later

/-- One delta of an environment, with the rendering and the iteration orders of
its refresh. -/
structure TrackedDelta where
  environmentId : Text
  delta : AppliedPatchDelta
  rendering : DiffRendering
  order : MapOrder

def trackDeltas (tracker : TurnDiffTracker) (deltas : List TrackedDelta) : TurnDiffTracker :=
  deltas.foldl (fun tracker tracked =>
    tracker.trackDelta tracked.rendering tracked.order tracked.environmentId tracked.delta)
    tracker

def replayDeltas (files : Files) (deltas : List TrackedDelta) : Files :=
  deltas.foldl (fun files tracked =>
    replayChanges (TrackedPath.mk tracked.environmentId) files tracked.delta.changes) files

def ConsistentDeltas : Files → List TrackedDelta → Prop
  | _, [] => True
  | files, tracked :: rest =>
    tracked.delta.exact = true ∧
      ConsistentChanges tracked.environmentId files tracked.delta.changes ∧
        ConsistentDeltas
          (replayChanges (TrackedPath.mk tracked.environmentId) files tracked.delta.changes)
          rest

theorem applyChange_valid (tracker : TurnDiffTracker) (change : AppliedPatchChange) :
    (applyChange environmentId tracker change).valid = tracker.valid := by
  have noted : ∀ (tracker : TurnDiffTracker) (path : TrackedPath) (text : Option Text),
      (tracker.noteBaseline path text).valid = tracker.valid := by
    intro tracker path text
    unfold noteBaseline
    split
    · split <;> rfl
    · rfl
  obtain ⟨path, change⟩ := change
  cases change with
  | update dest oldText movedOver newText =>
    cases dest with
    | none => exact noted _ _ _
    | some dest => exact (noted _ _ _).trans (noted _ _ _)
  | _ => exact noted _ _ _

theorem applyChanges_valid (changes : List AppliedPatchChange) (tracker : TurnDiffTracker) :
    (changes.foldl (applyChange environmentId) tracker).valid = tracker.valid := by
  induction changes generalizing tracker with
  | nil => rfl
  | cons change rest ih => rw [List.foldl_cons, ih, applyChange_valid]

theorem trackDelta_reflects {initial files : Files} {tracker : TurnDiffTracker}
    (valid : tracker.valid = true) (reflects : tracker.Reflects initial files)
    {tracked : TrackedDelta} (exact : tracked.delta.exact = true)
    (agree : ConsistentChanges tracked.environmentId files tracked.delta.changes) :
    let after := tracker.trackDelta tracked.rendering tracked.order tracked.environmentId
      tracked.delta
    after.valid = true ∧ after.Reflects initial
      (replayChanges (TrackedPath.mk tracked.environmentId) files tracked.delta.changes) := by
  have applied := applyChanges_reflects tracked.environmentId tracked.delta.changes initial
    files tracker reflects agree
  have stillValid : (tracked.delta.changes.foldl (applyChange tracked.environmentId)
      tracker).valid = true :=
    (applyChanges_valid _ _ _).trans valid
  simp only [trackDelta, valid, exact, Bool.not_true, Bool.false_eq_true, if_false]
  exact ⟨stillValid, applied.baseline, applied.current, applied.untouched⟩

theorem trackDeltas_reflects (deltas : List TrackedDelta) (initial files : Files)
    (tracker : TurnDiffTracker) (valid : tracker.valid = true)
    (reflects : tracker.Reflects initial files) (agree : ConsistentDeltas files deltas) :
    (tracker.trackDeltas deltas).Reflects initial (replayDeltas files deltas) := by
  induction deltas generalizing files tracker with
  | nil => exact reflects
  | cons tracked rest ih =>
    obtain ⟨exact, changes, later⟩ := agree
    obtain ⟨validAfter, reflectsAfter⟩ :=
      trackDelta_reflects valid reflects exact changes
    exact ih _ _ validAfter reflectsAfter later

end TurnDiffTracker

end CodexFormal.TurnDiff
