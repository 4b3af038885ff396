import CodexFormal.TurnDiff.RenderedPairs

/-!
# The turn diff and the iteration orders

What a tracker records does not depend on the orders in which its maps are iterated; only
the cache and the diff can.  The cache gives what rendering anew would give, since a revision
number belongs to one content.  So the diff is a function of the record where the renames of
the record are determined and the display paths tell the tracked paths apart.
-/

set_option autoImplicit false

namespace CodexFormal.TurnDiff

open Foundation FiniteMap Option List
open Patch

namespace TurnDiffTracker

/-- The deltas of a turn, `orders n` being the iteration orders at the refresh after the
delta number `n`. -/
def trackHistory (rendering : DiffRendering) :
    (Nat → MapOrder) → TurnDiffTracker → List (Text × AppliedPatchDelta) → TurnDiffTracker
  | _, tracker, [] => tracker
  | orders, tracker, (environmentId, delta) :: rest =>
    trackHistory rendering (fun n => orders (n + 1))
      (tracker.trackDelta rendering (orders 0) environmentId delta) rest

section

variable (tracker : TurnDiffTracker)

/-- A tracker without its cache and its diff. -/
def record : TurnDiffTracker :=
  { tracker with renderedDiffs := ∅, unifiedDiff := none }

def recordDelta (environmentId : Text) (delta : AppliedPatchDelta) : TurnDiffTracker :=
  if !tracker.valid then tracker
  else if !delta.exact then tracker.invalidate
  else delta.changes.foldl (applyChange environmentId) tracker

def recordHistory (history : List (Text × AppliedPatchDelta)) : TurnDiffTracker :=
  history.foldl (fun tracker tracked => tracker.recordDelta tracked.1 tracked.2) tracker

end

theorem noteBaseline_record (tracker : TurnDiffTracker) (path : TrackedPath)
    (content : Option Text) :
    (tracker.noteBaseline path content).record = tracker.record.noteBaseline path content := by
  cases content with
  | none => rfl
  | some content =>
    have sameTracks : tracker.record.tracks path = tracker.tracks path := rfl
    unfold noteBaseline
    simp only [sameTracks]
    split <;> rfl

theorem applyUpdate_record {tracker : TurnDiffTracker} {source : TrackedPath}
    {dest : Option TrackedPath} {oldText : Text} {prev : Option Text} {newContent : Text} :
    (tracker.applyUpdate source dest oldText prev newContent).record =
    tracker.record.applyUpdate source dest oldText prev newContent := by
  unfold applyUpdate
  cases dest with
  | none =>
    simp only
    rw [← noteBaseline_record]
    rfl
  | some dest =>
    unfold applyMove
    simp only
    rw [← noteBaseline_record, ← noteBaseline_record]
    rfl

variable (envId : Text)

theorem applyChange_record (tracker : TurnDiffTracker)
    (change : AppliedPatchChange) : (applyChange envId tracker change).record =
    applyChange envId tracker.record change := by
  obtain ⟨path, change⟩ := change
  cases change with
  | add text overwrittenContent =>
    have noted := noteBaseline_record { tracker with
        originByCurrentPath := tracker.originByCurrentPath.erase ⟨envId, path⟩ }
      ⟨envId, path⟩ overwrittenContent
    exact congrArg (fun record : TurnDiffTracker => record.insertCurrent ⟨envId, path⟩ text) noted
  | delete text =>
    have noted := noteBaseline_record tracker ⟨envId, path⟩ (some text)
    simp only [applyChange, applyDelete]
    rw [← noted]
    rfl
  | update dest oldText movedOver newText =>
    exact applyUpdate_record

theorem applyChanges_record {envId : Text} {changes : List AppliedPatchChange}
    {tracker : TurnDiffTracker} : (changes.foldl (applyChange envId) tracker).record =
    changes.foldl (applyChange envId) tracker.record := by
  induction changes generalizing tracker with
  | nil => rfl
  | cons change rest ih => rw [foldl_cons, foldl_cons, ih, applyChange_record]

theorem trackDelta_record (tracker : TurnDiffTracker) (rendering : DiffRendering)
    (order : MapOrder) (envId : Text) (delta : AppliedPatchDelta) :
    (tracker.trackDelta rendering order envId delta).record =
    tracker.record.recordDelta envId delta := by
  have sameValid : tracker.record.valid = tracker.valid := rfl
  unfold trackDelta recordDelta
  rw [sameValid]
  split
  · rfl
  · split
    · rfl
    · exact applyChanges_record

theorem trackHistory_record (rendering : DiffRendering) (orders : Nat → MapOrder)
    (tracker : TurnDiffTracker) (history : List (Text × AppliedPatchDelta)) :
    (trackHistory rendering orders tracker history).record =
    tracker.record.recordHistory history := by
  induction history generalizing orders tracker with
  | nil => rfl
  | cons tracked rest ih =>
    obtain ⟨envId, delta⟩ := tracked
    rw [trackHistory, ih, trackDelta_record]
    rfl

/-- The contents in the order of their revision numbers, and a cache that was rendered from
them. -/
structure Coherent (rendering : DiffRendering) (log : List Text) (tracker : TurnDiffTracker) :
    Prop where
  next : tracker.nextRevision = log.length
  baseline : ∀ path tracked, tracker.baselineByPath.lookup path = some tracked →
    log[tracked.revision]? = some tracked.content
  current : ∀ path tracked, tracker.currentByPath.lookup path = some tracked →
    log[tracked.revision]? = some tracked.content
  known : ∀ key value, tracker.renderedDiffs.lookup key = some value →
    (∀ revision ∈ key.leftRevision, revision < log.length) ∧
      ∀ revision ∈ key.rightRevision, revision < log.length
  cached : ∀ key value, tracker.renderedDiffs.lookup key = some value →
    value = tracker.renderDiff rendering
      key.leftPath (key.leftRevision.bind fun revision => log[revision]?)
      key.rightPath (key.rightRevision.bind fun revision => log[revision]?)

theorem bind_getElem?_append (log : List Text) (more : List Text) (revision : Option Nat)
    (known : ∀ num ∈ revision, num < log.length) :
    (revision.bind fun num => (log ++ more)[num]?) = revision.bind fun num => log[num]? := by
  cases revision with
  | none => rfl
  | some num => exact List.getElem?_append_left (known num rfl)

theorem renderDiff_congr {tracker other : TurnDiffTracker}
    (roots : other.displayRootsByEnvironment = tracker.displayRootsByEnvironment)
    (rendering : DiffRendering) (left right : TrackedPath) (leftContent rightContent : Option
    Text) : other.renderDiff rendering left leftContent right rightContent =
    tracker.renderDiff rendering left leftContent right rightContent := by
  have samePath : ∀ path,
      other.displayPath rendering path = tracker.displayPath rendering path := by
    intro path
    simp [displayPath, roots]
  unfold renderDiff
  rw [samePath left, samePath right]

section

variable {rendering : DiffRendering} {log : List Text} {tracker : TurnDiffTracker}
  (coherent : tracker.Coherent rendering log)

include coherent

theorem Coherent.extend (more : List Text) (after : TurnDiffTracker)
    (roots : after.displayRootsByEnvironment = tracker.displayRootsByEnvironment)
    (cache : after.renderedDiffs = tracker.renderedDiffs)
    (next : after.nextRevision = log.length + more.length)
    (baseline : ∀ path tracked, after.baselineByPath.lookup path = some tracked →
    tracker.baselineByPath.lookup path = some tracked ∨
    (log ++ more)[tracked.revision]? = some tracked.content)
    (current : ∀ path tracked, after.currentByPath.lookup path = some tracked →
    tracker.currentByPath.lookup path = some tracked ∨
    (log ++ more)[tracked.revision]? = some tracked.content) :
    after.Coherent rendering (log ++ more) := by
  have kept : ∀ (revision : Nat) (content : Text), log[revision]? = some content →
      (log ++ more)[revision]? = some content := by
    intro revision content found
    rw [List.getElem?_append_left (List.getElem?_eq_some_iff.mp found).1, found]
  refine ⟨by rw [next, List.length_append], ?_, ?_, ?_, ?_⟩
  · intro path tracked found
    exact (baseline path tracked found).elim
      (fun old => kept _ _ (coherent.baseline path tracked old)) id
  · intro path tracked found
    exact (current path tracked found).elim
      (fun old => kept _ _ (coherent.current path tracked old)) id
  · intro key value found
    rw [cache] at found
    obtain ⟨left, right⟩ := coherent.known key value found
    rw [List.length_append]
    exact ⟨fun revision isLeft => Nat.lt_add_right _ (left revision isLeft),
      fun revision isRight => Nat.lt_add_right _ (right revision isRight)⟩
  · intro key value found
    rw [cache] at found
    obtain ⟨left, right⟩ := coherent.known key value found
    rw [bind_getElem?_append log more _ left, bind_getElem?_append log more _ right,
      renderDiff_congr roots]
    exact coherent.cached key value found

theorem insertBaseline_coherent (path : TrackedPath) (text : Text) :
    (tracker.insertBaseline path text).Coherent rendering (log ++ [text]) := by
  refine coherent.extend [text] _ rfl rfl (congrArg (· + 1) coherent.next) ?_
    fun other tracked found => .inl found
  intro other tracked found
  simp only [insertBaseline, lookup_insert_eq_ite] at found
  split at found
  · cases found
    simp [coherent.next]
  · exact .inl found

theorem insertCurrent_coherent (path : TrackedPath) (text : Text) :
    (tracker.insertCurrent path text).Coherent rendering (log ++ [text]) := by
  refine coherent.extend [text] _ rfl rfl (congrArg (· + 1) coherent.next)
    (fun other tracked found => .inl found) ?_
  intro other tracked found
  simp only [insertCurrent, lookup_insert_eq_ite] at found
  split at found
  · cases found
    simp [coherent.next]
  · exact .inl found

end

/-- Some contents give the revision numbers of the tracker. -/
def HasLog (rendering : DiffRendering) (tracker : TurnDiffTracker) : Prop :=
  ∃ log, tracker.Coherent rendering log

variable {rendering : DiffRendering} {tracker : TurnDiffTracker}

section

variable (hasLog : tracker.HasLog rendering)

include hasLog

theorem noteBaseline_hasLog (path : TrackedPath)
    (text : Option Text) : (tracker.noteBaseline path text).HasLog rendering := by
  obtain ⟨log, coherent⟩ := hasLog
  unfold noteBaseline
  split
  · split
    · exact ⟨log, coherent⟩
    · exact ⟨_, insertBaseline_coherent coherent path _⟩
  · exact ⟨log, coherent⟩

theorem insertCurrent_hasLog (path : TrackedPath)
    (text : Text) : (tracker.insertCurrent path text).HasLog rendering := by
  obtain ⟨log, coherent⟩ := hasLog
  exact ⟨_, insertCurrent_coherent coherent path text⟩

theorem withOrigins_hasLog (origins : FiniteMap TrackedPath TrackedPath) :
    { tracker with originByCurrentPath := origins }.HasLog rendering := by
  obtain ⟨log, coherent⟩ := hasLog
  exact ⟨log, coherent.next, coherent.baseline, coherent.current, coherent.known, coherent.cached⟩

theorem eraseCurrent_hasLog (path : TrackedPath)
    (origins : FiniteMap TrackedPath TrackedPath) : { tracker with
      currentByPath := tracker.currentByPath.erase path
      originByCurrentPath := origins }.HasLog rendering := by
  obtain ⟨log, coherent⟩ := hasLog
  refine ⟨log, coherent.next, coherent.baseline, ?_, coherent.known, coherent.cached⟩
  intro other tracked found
  simp only [lookup_erase_eq_ite] at found
  split at found
  · cases found
  · exact coherent.current other tracked found

theorem applyChange_hasLog (envId : Text) (change : AppliedPatchChange) :
    (applyChange envId tracker change).HasLog rendering := by
  obtain ⟨path, change⟩ := change
  cases change with
  | add text overwrittenContent =>
    exact insertCurrent_hasLog
      (noteBaseline_hasLog (withOrigins_hasLog hasLog _) _ overwrittenContent) _ text
  | delete text =>
    exact eraseCurrent_hasLog (noteBaseline_hasLog hasLog _ (some text)) _ _
  | update dest oldText movedOver newText =>
    have noted := noteBaseline_hasLog hasLog ⟨envId, path⟩ (some oldText)
    cases dest with
    | none => exact insertCurrent_hasLog noted _ newText
    | some dest =>
      have vacated := eraseCurrent_hasLog
        (noteBaseline_hasLog noted ⟨envId, dest⟩ movedOver)
        ⟨envId, path⟩
      exact withOrigins_hasLog (insertCurrent_hasLog (vacated _) _ newText) _

end

theorem applyChanges_hasLog (changes : List AppliedPatchChange)
    (tracker : TurnDiffTracker) (hasLog : tracker.HasLog rendering) :
    (changes.foldl (applyChange envId) tracker).HasLog rendering := by
  induction changes generalizing tracker with
  | nil => exact hasLog
  | cons change rest ih => exact ih _ (applyChange_hasLog hasLog envId change)

def renderAnew (tracker : TurnDiffTracker) (rendering : DiffRendering)
    (pair : TrackedPath × TrackedPath) : Option Text :=
  tracker.renderDiff rendering pair.1 (tracker.baselineAt pair.1) pair.2
    (tracker.currentAt pair.2)

def diffAnew (tracker : TurnDiffTracker) (rendering : DiffRendering) (order : MapOrder) :
    Option Text :=
  let aggregated := ((tracker.renderedPairs rendering order).map
    (tracker.renderAnew rendering)).foldl appendDiff []
  if aggregated = [] then none else some aggregated

theorem Coherent.logged {log : List Text} {held : Option TrackedContent}
    (logged : ∀ tracked, held = some tracked → log[tracked.revision]? = some tracked.content) :
    ((held.map TrackedContent.revision).bind fun revision => log[revision]?) =
    held.map TrackedContent.content := by
  cases held with
  | none => rfl
  | some tracked => exact logged tracked rfl

variable {log : List Text}

theorem renderPair_value (coherent : tracker.Coherent rendering log)
    (pair : TrackedPath × TrackedPath) :
    (tracker.renderPair rendering tracker.renderedDiffs pair).2 =
    tracker.renderAnew rendering pair := by
  unfold renderPair
  simp only
  cases found : tracker.renderedDiffs.lookup _ with
  | none => rfl
  | some value =>
    have shown := coherent.cached _ value found
    rw [Coherent.logged (coherent.baseline pair.1), Coherent.logged (coherent.current pair.2)]
      at shown
    exact shown

theorem lookup_foldl_insert (entries : List (DiffCacheKey × Option Text))
    (cache : FiniteMap DiffCacheKey (Option Text)) (key : DiffCacheKey) (value : Option Text)
    (found : (entries.foldl (fun cache entry => cache.insert entry.1 entry.2) cache).lookup key =
    some value) : (key, value) ∈ entries ∨ cache.lookup key = some value := by
  induction entries generalizing cache with
  | nil => exact .inr found
  | cons entry rest ih =>
    rcases ih _ found with later | earlier
    · exact .inl (mem_cons_of_mem _ later)
    · rw [lookup_insert_eq_ite] at earlier
      split at earlier
      next same =>
        cases some.inj earlier
        exact .inl (mem_cons.mpr (.inl (Prod.ext same rfl)))
      · exact .inr earlier

theorem refresh_coherent (coherent : tracker.Coherent rendering log)
    (order : MapOrder) : (tracker.refreshUnifiedDiff rendering order).Coherent rendering log := by
  have shown : ∀ key value,
      (tracker.refreshUnifiedDiff rendering order).renderedDiffs.lookup key = some value →
        ∃ pair, tracker.renderPair rendering tracker.renderedDiffs pair = (key, value) := by
    intro key value found
    rcases lookup_foldl_insert _ ∅ key value found with mem | gone
    · obtain ⟨pair, _, isPair⟩ := mem_map.mp mem
      exact ⟨pair, isPair⟩
    · simp at gone
  refine ⟨coherent.next, coherent.baseline, coherent.current, ?_, ?_⟩
  · intro key value found
    obtain ⟨pair, isPair⟩ := shown key value found
    cases isPair
    constructor
    · intro revision isLeft
      obtain ⟨tracked, held, rfl⟩ := Option.map_eq_some_iff.mp isLeft
      exact (List.getElem?_eq_some_iff.mp (coherent.baseline _ tracked held)).1
    · intro revision isRight
      obtain ⟨tracked, held, rfl⟩ := Option.map_eq_some_iff.mp isRight
      exact (List.getElem?_eq_some_iff.mp (coherent.current _ tracked held)).1
  · intro key value found
    obtain ⟨pair, isPair⟩ := shown key value found
    have anew := renderPair_value coherent pair
    rw [isPair] at anew
    cases isPair
    rw [Coherent.logged (coherent.baseline pair.1), Coherent.logged (coherent.current pair.2)]
    exact anew

theorem refresh_unifiedDiff (coherent : tracker.Coherent rendering log)
    (order : MapOrder) : (tracker.refreshUnifiedDiff rendering order).unifiedDiff =
    tracker.diffAnew rendering order := by
  have values : ((tracker.renderedPairs rendering order).map
      (tracker.renderPair rendering tracker.renderedDiffs)).map Prod.snd =
        (tracker.renderedPairs rendering order).map (tracker.renderAnew rendering) := by
    rw [List.map_map]
    exact List.map_congr_left fun pair _ => renderPair_value coherent pair
  have folded : ∀ entries : List (DiffCacheKey × Option Text),
      entries.foldl (fun text entry => appendDiff text entry.2) [] =
        (entries.map Prod.snd).foldl appendDiff [] := by
    intro entries
    rw [foldl_map]
  unfold refreshUnifiedDiff diffAnew
  simp only
  rw [folded, values]

/-- The diff is that of some iteration order, and an invalidated tracker has none. -/
structure ShowsRecord (rendering : DiffRendering) (tracker : TurnDiffTracker) : Prop where
  hasLog : tracker.HasLog rendering
  shown : tracker.valid = true → ∃ order, tracker.unifiedDiff = tracker.diffAnew rendering order
  invalid : tracker.valid = false → tracker.unifiedDiff = none

theorem trackDelta_showsRecord (shows : tracker.ShowsRecord rendering) (order : MapOrder)
    (envId : Text) (delta : AppliedPatchDelta) :
    (tracker.trackDelta rendering order envId delta).ShowsRecord rendering := by
  unfold trackDelta
  split
  · exact shows
  next valid =>
    split
    · obtain ⟨log, coherent⟩ := shows.hasLog
      refine ⟨⟨log, coherent.next, coherent.baseline, coherent.current, ?_, ?_⟩, ?_, fun _ => rfl⟩
      · intro key value found
        simp [invalidate] at found
      · intro key value found
        simp [invalidate] at found
      · intro isValid
        cases isValid
    · obtain ⟨log, coherent⟩ :=
        applyChanges_hasLog envId delta.changes tracker shows.hasLog
      refine ⟨⟨log, refresh_coherent coherent order⟩,
        fun _ => ⟨order, refresh_unifiedDiff coherent order⟩, ?_⟩
      intro isInvalid
      have sameValid := applyChanges_valid envId delta.changes tracker
      have invalid : tracker.valid = false := sameValid.symm.trans isInvalid
      exact absurd invalid (by simpa using valid)

theorem new_showsRecord (rendering : DiffRendering) (displayRoots : FiniteMap Text PathUri) :
    (withEnvironmentDisplayRoots displayRoots).ShowsRecord rendering := by
  refine ⟨⟨[], rfl, ?_, ?_, ?_, ?_⟩, fun _ => ⟨entryOrder, rfl⟩, fun _ => rfl⟩ <;>
    intro key value found <;> simp [withEnvironmentDisplayRoots, new] at found

theorem trackHistory_showsRecord (orders : Nat → MapOrder) (tracker : TurnDiffTracker)
    (history : List (Text × AppliedPatchDelta)) (shows : tracker.ShowsRecord rendering) :
    (trackHistory rendering orders tracker history).ShowsRecord rendering := by
  induction history generalizing orders tracker with
  | nil => exact shows
  | cons tracked rest ih => exact ih _ _ (trackDelta_showsRecord shows _ _ _)

/-- No two moves are shown with one origin. -/
def OneDestination (tracker : TurnDiffTracker) : Prop :=
  ∀ origin first second, tracker.Renames origin first → tracker.Renames origin second →
    first = second

/-- The display paths tell the tracked paths apart. -/
def DistinctDisplay (rendering : DiffRendering) (tracker : TurnDiffTracker) : Prop :=
  ∀ first second, tracker.tracks first = true → tracker.tracks second = true →
    tracker.displayPath rendering first = tracker.displayPath rendering second → first = second

theorem Renames.collectRename {origin dest : TrackedPath} (renames : tracker.Renames origin dest)
    (pairs : FiniteMap TrackedPath TrackedPath) :
    tracker.collectRename pairs ⟨dest, origin⟩ = pairs.insert origin dest := by
  refine if_neg ?_
  rintro (same | now | gone | fresh | baseline)
  · have occupied := renames.occupied
    rw [show dest = origin from same, renames.vacated] at occupied
    cases occupied
  · rw [renames.vacated] at now
    cases now
  · exact absurd renames.occupied (by simp [isNone_iff_eq_none.mp gone])
  · exact absurd renames.existed (by simp [isNone_iff_eq_none.mp fresh])
  · rw [renames.fresh] at baseline
    cases baseline

theorem collectRename_isSome {pairs : FiniteMap TrackedPath TrackedPath}
    {entry : Sigma fun _ : TrackedPath => TrackedPath} {origin : TrackedPath}
    (found : (pairs.lookup origin).isSome = true ∨
    tracker.Renames origin entry.1 ∧ entry.2 = origin) :
    ((tracker.collectRename pairs entry).lookup origin).isSome = true := by
  rcases found with earlier | ⟨renames, rfl⟩
  · unfold TurnDiffTracker.collectRename
    split
    · exact earlier
    · rw [lookup_insert_eq_ite]
      split
      · rfl
      · exact earlier
  · rw [renames.collectRename, AList.lookup_insert]
    rfl

theorem foldl_collectRename_isSome (tracker : TurnDiffTracker)
    (entries : List (Sigma fun _ : TrackedPath => TrackedPath))
    (pairs : FiniteMap TrackedPath TrackedPath) (origin : TrackedPath)
    (found : (pairs.lookup origin).isSome = true ∨
    ∃ entry ∈ entries, tracker.Renames origin entry.1 ∧ entry.2 = origin) :
    ((entries.foldl tracker.collectRename pairs).lookup origin).isSome = true := by
  induction entries generalizing pairs with
  | nil =>
    refine found.resolve_right ?_
    rintro ⟨_, mem, _⟩
    exact not_mem_nil mem
  | cons entry rest ih =>
    refine ih _ ?_
    rcases found with earlier | ⟨other, mem, renamed⟩
    · exact .inl (collectRename_isSome (.inl earlier))
    · rcases mem_cons.mp mem with rfl | later
      · exact .inl (collectRename_isSome (.inr renamed))
      · exact .inr ⟨other, later, renamed⟩

theorem renamePairs_lookup_iff (determined : tracker.OneDestination) (order : MapOrder)
    (origin dest : TrackedPath) :
    (tracker.renamePairs order).lookup origin = some dest ↔ tracker.Renames origin dest := by
  refine ⟨tracker.renamePairs_lookup order origin dest, fun renames => ?_⟩
  have isEntry : (⟨dest, origin⟩ : Sigma fun _ : TrackedPath => TrackedPath) ∈
      order.origins.arrange tracker.originByCurrentPath.entries := by
    rw [Arrangement.mem_arrange, mem_entries_iff_lookup]
    exact renames.recorded
  have found := foldl_collectRename_isSome tracker _ ∅ origin (.inr ⟨_, isEntry, renames, rfl⟩)
  obtain ⟨other, isOther⟩ := isSome_iff_exists.mp found
  have otherRenames := tracker.renamePairs_lookup order origin other isOther
  rw [← determined origin other dest otherRenames renames]
  exact isOther

/-- Iterates the entry after all others. -/
def iteratedLast {Entry : Type} [DecidableEq Entry] (entry : Entry) : Arrangement Entry where
  arrange entries := if entry ∈ entries then entries.erase entry ++ [entry] else entries
  perm entries := by
    split
    next mem => exact (perm_append_singleton _ _).trans (perm_cons_erase mem).symm
    · exact .refl _

theorem Renames.exists_order {origin dest : TrackedPath} (renames : tracker.Renames origin dest) :
    ∃ order, (tracker.renamePairs order).lookup origin = some dest := by
  refine ⟨{ entryOrder with origins := iteratedLast ⟨dest, origin⟩ }, ?_⟩
  unfold renamePairs iteratedLast
  dsimp only
  rw [if_pos ((mem_entries_iff_lookup _ _ _).mpr renames.recorded), foldl_append, foldl_cons,
    renames.collectRename]
  exact AList.lookup_insert _

/-- The renames are the same in all orders exactly if every origin has one destination. -/
theorem oneDestination_iff : tracker.OneDestination ↔ ∀ order other origin,
    (tracker.renamePairs order).lookup origin = (tracker.renamePairs other).lookup origin := by
  constructor
  · intro determined order other origin
    ext dest
    rw [renamePairs_lookup_iff determined, renamePairs_lookup_iff determined]
  · intro same origin first second isFirst isSecond
    obtain ⟨order, left⟩ := isFirst.exists_order
    obtain ⟨other, right⟩ := isSecond.exists_order
    rw [same order other, right] at left
    exact (some.inj left).symm

theorem pairUp_congr (renames others : FiniteMap TrackedPath TrackedPath)
    (same : ∀ origin, renames.lookup origin = others.lookup origin)
    (done paths : List TrackedPath) : pairUp renames done paths = pairUp others done paths := by
  have sameValues : ∀ path, path ∈ values renames ↔ path ∈ values others := by
    intro path
    simp [mem_values_iff, same]
  induction paths generalizing done with
  | nil => rfl
  | cons path rest ih => simp [pairUp, same, sameValues, ih]

theorem sortedPaths_congr (uniq : tracker.DistinctDisplay rendering) (order other : MapOrder) :
    tracker.sortedPaths rendering order = tracker.sortedPaths rendering other := by
  have perm : (order.baselinePaths.arrange tracker.baselineByPath.keys ++
      order.currentPaths.arrange tracker.currentByPath.keys).Perm
        (other.baselinePaths.arrange tracker.baselineByPath.keys ++
        other.currentPaths.arrange tracker.currentByPath.keys) :=
    ((order.baselinePaths.perm _).trans (other.baselinePaths.perm _).symm).append
      ((order.currentPaths.perm _).trans (other.currentPaths.perm _).symm)
  unfold sortedPaths
  refine congrArg dedup (List.Perm.eq_of_pairwise ?_ (pairwise_insertionSort _ _)
    (pairwise_insertionSort _ _)
    (((perm_insertionSort _ _).trans perm).trans (perm_insertionSort _ _).symm))
  intro first second isFirst isSecond pre after
  refine uniq first second ?_ ?_ (le_antisymm pre after)
  · rw [← mem_sortedPaths tracker rendering order, sortedPaths, mem_dedup]
    exact isFirst
  · rw [← mem_sortedPaths tracker rendering other, sortedPaths, mem_dedup]
    exact isSecond

theorem diffAnew_congr (determined : tracker.OneDestination)
    (uniq : tracker.DistinctDisplay rendering) (order other : MapOrder) :
    tracker.diffAnew rendering order = tracker.diffAnew rendering other := by
  have sameRenames := oneDestination_iff.mp determined order other
  unfold diffAnew renderedPairs
  rw [sortedPaths_congr uniq order other, pairUp_congr _ _ sameRenames]

/-- The diff of a turn is the same for all iteration orders, if the history leaves no two
moves with one origin and no two tracked paths that are displayed alike. -/
theorem unifiedDiff_orderIndependent (rendering : DiffRendering)
    (displayRoots : FiniteMap Text PathUri) (history : List (Text × AppliedPatchDelta))
    (determined :
      ((withEnvironmentDisplayRoots displayRoots).recordHistory history).OneDestination)
    (distinct :
      ((withEnvironmentDisplayRoots displayRoots).recordHistory history).DistinctDisplay rendering)
    (orders others : Nat → MapOrder) :
    (trackHistory rendering orders (withEnvironmentDisplayRoots displayRoots) history).unifiedDiff =
      (trackHistory rendering others (withEnvironmentDisplayRoots displayRoots)
        history).unifiedDiff := by
  have firstRecord := trackHistory_record rendering orders
    (withEnvironmentDisplayRoots displayRoots) history
  have secondRecord := trackHistory_record rendering others
    (withEnvironmentDisplayRoots displayRoots) history
  have firstShows := trackHistory_showsRecord orders _ history
    (new_showsRecord rendering displayRoots)
  have secondShows := trackHistory_showsRecord others _ history
    (new_showsRecord rendering displayRoots)
  generalize trackHistory rendering orders _ history = first at *
  generalize trackHistory rendering others _ history = second at *
  have isRecord : (withEnvironmentDisplayRoots displayRoots).record =
    withEnvironmentDisplayRoots displayRoots := rfl
  rw [isRecord] at firstRecord secondRecord
  rw [← firstRecord] at determined distinct secondRecord
  have sameValid : second.record.valid = first.record.valid := congrArg valid secondRecord
  have sameDiff : ∀ order,
      second.record.diffAnew rendering order = first.record.diffAnew rendering order :=
    fun order => congrArg (fun tracker => tracker.diffAnew rendering order) secondRecord
  cases isValid : first.valid with
  | false => rw [firstShows.invalid isValid, secondShows.invalid (sameValid.trans isValid)]
  | true =>
    obtain ⟨order, isFirst⟩ := firstShows.shown isValid
    obtain ⟨other, isSecond⟩ := secondShows.shown (sameValid.trans isValid)
    rw [isFirst, isSecond]
    exact (diffAnew_congr determined distinct order other).trans (sameDiff other).symm

def reverseOrder : MapOrder where
  baselinePaths := ⟨List.reverse, List.reverse_perm⟩
  currentPaths := ⟨List.reverse, List.reverse_perm⟩
  origins := ⟨List.reverse, List.reverse_perm⟩

def movedHistory : List (Text × AppliedPatchDelta) :=
  [([], ⟨[⟨⟨['a']⟩, .update (some ⟨['b']⟩) ['x'] none ['y']⟩], true⟩)]

theorem moved_history_orderIndependent :
    (trackHistory plainRendering (fun _ => entryOrder) (withEnvironmentDisplayRoots ∅)
        movedHistory).unifiedDiff =
      (trackHistory plainRendering (fun _ => reverseOrder) (withEnvironmentDisplayRoots ∅)
        movedHistory).unifiedDiff := by
  refine unifiedDiff_orderIndependent plainRendering ∅ movedHistory ?_ ?_ _ _
  · have oneEntry : ((withEnvironmentDisplayRoots ∅).recordHistory
      movedHistory).originByCurrentPath.entries = [⟨⟨[], ⟨['b']⟩⟩, ⟨[], ⟨['a']⟩⟩⟩] := rfl
    intro origin first second isFirst isSecond
    have firstEntry := (mem_entries_iff_lookup _ _ _).mpr isFirst.recorded
    have secondEntry := (mem_entries_iff_lookup _ _ _).mpr isSecond.recorded
    rw [oneEntry, mem_singleton] at firstEntry secondEntry
    cases firstEntry
    cases secondEntry
    rfl
  · have twoPaths : ((withEnvironmentDisplayRoots ∅).recordHistory movedHistory).sortedPaths
      plainRendering entryOrder = [⟨[], ⟨['a']⟩⟩, ⟨[], ⟨['b']⟩⟩] := by decide +kernel
    intro first second isFirst isSecond same
    rw [← mem_sortedPaths _ plainRendering entryOrder, twoPaths] at isFirst isSecond
    simp only [mem_cons, not_mem_nil, or_false] at isFirst isSecond
    rcases isFirst with rfl | rfl <;> rcases isSecond with rfl | rfl
    · rfl
    · exact absurd same (by decide)
    · exact absurd same (by decide)
    · rfl

/-- A file is moved away, created again and moved away again. -/
def recreatedHistory : List (Text × AppliedPatchDelta) :=
  [([], ⟨[⟨⟨['a']⟩, .update (some ⟨['b']⟩) ['x'] none ['x']⟩], true⟩),
    ([], ⟨[⟨⟨['a']⟩, .add ['y'] none⟩], true⟩),
    ([], ⟨[⟨⟨['a']⟩, .update (some ⟨['c']⟩) ['y'] none ['y']⟩], true⟩)]

def twoEnvironmentsHistory : List (Text × AppliedPatchDelta) :=
  [(['e'], ⟨[⟨⟨['a']⟩, .add ['x'] none⟩], true⟩), (['f'], ⟨[⟨⟨['a']⟩, .add ['y'] none⟩], true⟩)]

def contentRendering : DiffRendering :=
  { plainRendering with unifiedDiff := fun _ new _ _ => new }

/-- The order of the origins decides which of two moves of a path is shown as the rename, and
the order of the paths decides which of two environments comes first. -/
theorem recreated_file_dependsOnOrder :
    (trackHistory plainRendering (fun _ => entryOrder) (withEnvironmentDisplayRoots ∅)
        recreatedHistory).unifiedDiff ≠
      (trackHistory plainRendering (fun _ => reverseOrder) (withEnvironmentDisplayRoots ∅)
        recreatedHistory).unifiedDiff ∧
    (trackHistory contentRendering (fun _ => entryOrder) (withEnvironmentDisplayRoots ∅)
        twoEnvironmentsHistory).unifiedDiff ≠
      (trackHistory contentRendering (fun _ => reverseOrder) (withEnvironmentDisplayRoots ∅)
        twoEnvironmentsHistory).unifiedDiff := by
  constructor <;> decide +kernel

end TurnDiffTracker

end CodexFormal.TurnDiff
