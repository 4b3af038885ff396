import CodexFormal.TurnDiff.Coverage

/-!
# The rendered pairs cover every change once

A pair of a left and a right path is rendered as one diff.  A path that a move
has vacated is paired with the destination of the move, if nothing else stands
in the way; every other path is paired with itself.  Whatever the iteration
orders are, each tracked path belongs to exactly one pair.
-/

set_option autoImplicit false

namespace CodexFormal.TurnDiff

open Foundation List FiniteMap Patch

theorem mem_dedup {α : Type} [DecidableEq α] (list : List α) (elem : α) :
    elem ∈ dedup list ↔ elem ∈ list := by
  induction list with
  | nil => rfl
  | cons first tail ih =>
    cases tail with
    | nil => rfl
    | cons second rest =>
      rw [dedup]
      split
      next same =>
        subst same
        rw [ih]
        simp
      · rw [mem_cons, ih, ← mem_cons]

namespace TurnDiffTracker

variable (tracker : TurnDiffTracker) (rendering : DiffRendering) (order : MapOrder)
  (path : TrackedPath)

theorem mem_sortedPaths :
    path ∈ tracker.sortedPaths rendering order ↔ tracker.tracks path = true := by
  rw [sortedPaths, mem_dedup, (perm_insertionSort _ _).mem_iff, mem_append,
    Arrangement.mem_arrange, Arrangement.mem_arrange,
    ← AList.mem_keys, ← AList.mem_keys, ← AList.lookup_isSome, ← AList.lookup_isSome, tracks,
    Bool.or_eq_true]
  exact or_comm

/-- A move that is shown as one pair. -/
structure Renames (tracker : TurnDiffTracker) (origin dest : TrackedPath) : Prop where
  recorded : tracker.originByCurrentPath.lookup dest = some origin
  vacated : tracker.currentByPath.lookup origin = none
  occupied : (tracker.currentByPath.lookup dest).isSome = true
  existed : (tracker.baselineByPath.lookup origin).isSome = true
  fresh : tracker.baselineByPath.lookup dest = none

theorem collectRename_lookup (pairs : FiniteMap TrackedPath TrackedPath)
    (sound : ∀ origin dest, pairs.lookup origin = some dest → tracker.Renames origin dest)
    (entry : Sigma fun _ : TrackedPath => TrackedPath)
    (known : entry ∈ tracker.originByCurrentPath.entries) (origin dest : TrackedPath)
    (found : (tracker.collectRename pairs entry).lookup origin = some dest) :
    tracker.Renames origin dest := by
  unfold collectRename at found
  split at found
  · exact sound origin dest found
  next shown =>
    rw [lookup_insert_eq_ite] at found
    split at found
    next same =>
      subst same
      cases Option.some.inj found
      simp only [not_or, Bool.not_eq_true, Option.isSome_eq_false_iff,
        Option.isNone_eq_false_iff] at shown
      obtain ⟨_, vacated, occupied, existed, fresh⟩ := shown
      have noted : tracker.originByCurrentPath.lookup entry.1 = some entry.2 :=
        (mem_entries_iff_lookup _ _ _).mp known
      exact ⟨noted, Option.isNone_iff_eq_none.mp vacated, occupied, existed,
        Option.isNone_iff_eq_none.mp fresh⟩
    · exact sound origin dest found

theorem renamePairs_lookup (origin dest : TrackedPath)
    (paired : (tracker.renamePairs order).lookup origin = some dest) :
    tracker.Renames origin dest := by
  have collected : ∀ (entries : List (Sigma fun _ : TrackedPath => TrackedPath))
      (pairs : FiniteMap TrackedPath TrackedPath),
      (∀ entry ∈ entries, entry ∈ tracker.originByCurrentPath.entries) →
      (∀ origin dest, pairs.lookup origin = some dest → tracker.Renames origin dest) →
      ∀ origin dest, (entries.foldl tracker.collectRename pairs).lookup origin = some dest →
        tracker.Renames origin dest := by
    intro entries
    induction entries with
    | nil => exact fun pairs _ sound => sound
    | cons entry rest ih =>
      intro pairs known sound
      exact ih _ (fun other mem => known other (mem_cons_of_mem _ mem))
        (tracker.collectRename_lookup pairs sound entry (known entry mem_cons_self))
  refine collected _ ∅ ?_ (by simp) origin dest paired
  intro entry mem
  exact (Arrangement.mem_arrange _ _ _).mp mem

theorem renamePairs_injective (first second dest : TrackedPath)
    (left : (tracker.renamePairs order).lookup first = some dest)
    (right : (tracker.renamePairs order).lookup second = some dest) : first = second := by
  have firstRecorded := (tracker.renamePairs_lookup order first dest left).recorded
  have secondRecorded := (tracker.renamePairs_lookup order second dest right).recorded
  exact Option.some.inj (firstRecorded.symm.trans secondRecorded)

variable (renames : FiniteMap TrackedPath TrackedPath)

/-- A path that is neither handled nor a destination is emitted.  It counts as
handled from then on, and so does its destination, which is never emitted. -/
theorem pairUp_cons_emits (path : TrackedPath) (rest done : List TrackedPath) (unseen : path ∉ done)
    (notDest : path ∉ values renames) : ∃ handledAfter, pairUp renames done (path :: rest) =
    (path, (renames.lookup path).getD path) :: pairUp renames handledAfter rest ∧
    ∀ other, other ∉ values renames → (other ∈ handledAfter ↔ other = path ∨ other ∈ done) := by
  rw [pairUp, if_neg unseen, if_neg notDest]
  cases renamed : renames.lookup path with
  | none => exact ⟨path :: done, rfl, fun other _ => mem_cons⟩
  | some dest =>
    have isValue : dest ∈ values renames :=
      (mem_values_iff _ _).mpr ⟨path, renamed⟩
    refine ⟨dest :: path :: done, rfl, fun other otherNotDest => ?_⟩
    have ne : other ≠ dest := fun same => otherNotDest (same ▸ isValue)
    simp [ne]

/-- What the loop emits: for every path of the list that was not handled and is
no destination, the pair with its destination or with itself. -/
theorem mem_pairUp_iff (paths done : List TrackedPath) (pair : TrackedPath × TrackedPath) :
    pair ∈ pairUp renames done paths ↔ pair.1 ∈ paths ∧ pair.1 ∉ done ∧ pair.1 ∉ values renames ∧
    pair.2 = (renames.lookup pair.1).getD pair.1 := by
  induction paths generalizing done with
  | nil => simp [pairUp]
  | cons path rest ih =>
    by_cases seen : path ∈ done
    · rw [pairUp, if_pos seen, ih]
      constructor
      · rintro ⟨inRest, more⟩
        exact ⟨mem_cons_of_mem _ inRest, more⟩
      · rintro ⟨inPaths, unhandled, more⟩
        have ne : pair.1 ≠ path := fun same => unhandled (same ▸ seen)
        exact ⟨(mem_cons.mp inPaths).resolve_left ne, unhandled, more⟩
    · by_cases isDest : path ∈ values renames
      · rw [pairUp, if_neg seen, if_pos isDest, ih]
        constructor
        · rintro ⟨inRest, unhandled, more⟩
          exact ⟨mem_cons_of_mem _ inRest, fun old => unhandled (mem_cons_of_mem _ old), more⟩
        · rintro ⟨inPaths, unhandled, noDest, more⟩
          have ne : pair.1 ≠ path := fun same => noDest (same ▸ isDest)
          exact ⟨(mem_cons.mp inPaths).resolve_left ne,
            not_mem_cons_of_ne_of_not_mem ne unhandled, noDest, more⟩
      · obtain ⟨handledAfter, emits, handles⟩ :=
          pairUp_cons_emits renames path rest done seen isDest
        rw [emits, mem_cons, ih]
        constructor
        · rintro (rfl | ⟨inRest, unhandled, noDest, paired⟩)
          · exact ⟨mem_cons_self, seen, isDest, rfl⟩
          · have stillUnhandled := fun old => unhandled ((handles pair.1 noDest).mpr (.inr old))
            exact ⟨mem_cons_of_mem _ inRest, stillUnhandled, noDest, paired⟩
        · rintro ⟨inPaths, unhandled, noDest, paired⟩
          by_cases same : pair.1 = path
          · left
            rw [same] at paired
            exact Prod.ext same paired
          · refine .inr ⟨(mem_cons.mp inPaths).resolve_left same, ?_, noDest, paired⟩
            intro old
            exact ((handles pair.1 noDest).mp old).elim same unhandled

theorem pairUp_nodup (paths done : List TrackedPath) : (pairUp renames done paths).Nodup := by
  induction paths generalizing done with
  | nil => simp [pairUp]
  | cons path rest ih =>
    by_cases seen : path ∈ done
    · rw [pairUp, if_pos seen]
      exact ih done
    · by_cases isDest : path ∈ values renames
      · rw [pairUp, if_neg seen, if_pos isDest]
        exact ih (path :: done)
      · obtain ⟨handledAfter, emits, handles⟩ :=
          pairUp_cons_emits renames path rest done seen isDest
        rw [emits]
        refine nodup_cons.mpr ⟨fun again => ?_, ih handledAfter⟩
        have unhandled := ((mem_pairUp_iff renames rest _ _).mp again).2.1
        exact unhandled ((handles path isDest).mpr (.inl rfl))

variable (pair : TrackedPath × TrackedPath)

theorem mem_renderedPairs_iff : pair ∈ tracker.renderedPairs rendering order ↔
    tracker.tracks pair.1 = true ∧ pair.1 ∉ values (tracker.renamePairs order) ∧
    pair.2 = ((tracker.renamePairs order).lookup pair.1).getD pair.1 := by
  rw [renderedPairs, mem_pairUp_iff, mem_sortedPaths]
  simp

theorem mem_renderedPairs_of_renamed {origin dest : TrackedPath}
    (renamed : (tracker.renamePairs order).lookup origin = some dest) :
    (origin, dest) ∈ tracker.renderedPairs rendering order := by
  have renames := tracker.renamePairs_lookup order origin dest renamed
  refine (tracker.mem_renderedPairs_iff rendering order _).mpr ⟨?_, ?_, by simp [renamed]⟩
  · rw [tracks, renames.existed, Bool.or_true]
  · intro isValue
    obtain ⟨other, otherRenamed⟩ := (mem_values_iff _ _).mp isValue
    have occupied := (tracker.renamePairs_lookup order other origin otherRenamed).occupied
    rw [renames.vacated] at occupied
    contradiction

def touches (path : TrackedPath) (pair : TrackedPath × TrackedPath) : Bool :=
  decide (pair.1 = path) || decide (pair.2 = path)

structure PairOf (tracker : TurnDiffTracker) (path : TrackedPath)
    (pair : TrackedPath × TrackedPath) : Prop where
  touched : touches path pair = true
  tracked : tracker.tracks pair.1 = true ∧ tracker.tracks pair.2 = true
  /-- The left path of a proper pair is vacated. -/
  vacated : pair.1 ≠ pair.2 → tracker.currentAt pair.1 = none

theorem renderedPairs_pairOf
    (shown : pair ∈ tracker.renderedPairs rendering order) (path : TrackedPath)
    (hit : touches path pair = true) : tracker.PairOf path pair := by
  obtain ⟨known, _, paired⟩ := (tracker.mem_renderedPairs_iff rendering order pair).mp shown
  cases renamed : (tracker.renamePairs order).lookup pair.1 with
  | none =>
    rw [renamed] at paired
    refine ⟨hit, ⟨known, ?_⟩, fun proper => absurd paired.symm proper⟩
    rw [paired]
    exact known
  | some dest =>
    rw [renamed] at paired
    have isDest : pair.2 = dest := paired
    have renames := tracker.renamePairs_lookup order pair.1 dest renamed
    refine ⟨hit, ⟨known, ?_⟩, fun _ => ?_⟩
    · rw [isDest, tracks, renames.occupied]
      rfl
    · rw [currentAt, renames.vacated]
      rfl

theorem exists_unique_pair (known : tracker.tracks path = true) :
    ∃ pair, pair ∈ tracker.renderedPairs rendering order ∧ touches path pair = true ∧
    ∀ other ∈ tracker.renderedPairs rendering order, touches path other = true → other = pair := by
  by_cases isDest : path ∈ values (tracker.renamePairs order)
  · -- the path is shown with its origin
    obtain ⟨origin, renamed⟩ := (mem_values_iff _ _).mp isDest
    refine ⟨(origin, path), ?_, by simp [touches], ?_⟩
    · exact tracker.mem_renderedPairs_of_renamed rendering order renamed
    · intro other rendered hit
      obtain ⟨_, noDest, paired⟩ := (tracker.mem_renderedPairs_iff rendering order other).mp
        rendered
      have notLeft : other.1 ≠ path := fun same => noDest (same ▸ isDest)
      have isRight : other.2 = path := by simpa [touches, notLeft] using hit
      cases otherRenamed : (tracker.renamePairs order).lookup other.1 with
      | none =>
        rw [otherRenamed] at paired
        exact absurd (paired.symm.trans isRight) notLeft
      | some dest =>
        rw [otherRenamed] at paired
        have sameDest : dest = path := paired.symm.trans isRight
        rw [sameDest] at otherRenamed
        exact Prod.ext
          (tracker.renamePairs_injective order other.1 origin path otherRenamed renamed)
          isRight
  · refine ⟨(path, ((tracker.renamePairs order).lookup path).getD path), ?_, by simp [touches], ?_⟩
    · exact (tracker.mem_renderedPairs_iff rendering order _).mpr ⟨known, isDest, rfl⟩
    · intro other rendered hit
      obtain ⟨_, noDest, paired⟩ := (tracker.mem_renderedPairs_iff rendering order other).mp
        rendered
      have isLeft : other.1 = path := by
        by_contra notLeft
        have isRight : other.2 = path := by simpa [touches, notLeft] using hit
        cases otherRenamed : (tracker.renamePairs order).lookup other.1 with
        | none =>
          rw [otherRenamed] at paired
          exact notLeft (paired.symm.trans isRight)
        | some dest =>
          rw [otherRenamed] at paired
          have sameDest : dest = path := paired.symm.trans isRight
          exact isDest ((mem_values_iff _ _).mpr ⟨other.1, by rw [otherRenamed, sameDest]⟩)
      rw [isLeft] at paired
      exact Prod.ext isLeft paired

theorem renderedPairs_filter_touches (known : tracker.tracks path = true) :
    ∃ pair, (tracker.renderedPairs rendering order).filter (touches path) = [pair] := by
  have nodup : ((tracker.renderedPairs rendering order).filter (touches path)).Nodup :=
    (pairUp_nodup _ _ _).filter _
  obtain ⟨pair, shown, hit, unique⟩ :=
    tracker.exists_unique_pair rendering order path known
  refine ⟨pair, perm_singleton.mp ?_⟩
  refine (perm_ext_iff_of_nodup nodup (nodup_singleton pair)).mpr ?_
  intro other
  rw [mem_filter, mem_singleton]
  constructor
  · rintro ⟨otherRendered, otherTouched⟩
    exact unique other otherRendered otherTouched
  · rintro rfl
    exact ⟨shown, hit⟩

/-- A proper pair removes its left path; the right path gets its current
content. -/
def applyPair (tracker : TurnDiffTracker) (files : Files)
    (pair : TrackedPath × TrackedPath) : Files :=
  Function.update (if pair.1 = pair.2 then files else Function.update files pair.1 none)
    pair.2 (tracker.currentAt pair.2)

/-- The files at the tracked paths. -/
def restrict (tracker : TurnDiffTracker) (files : Files) : Files :=
  fun path => if tracker.tracks path then files path else none

variable (files : Files)

theorem applyPair_untouched (pair : TrackedPath × TrackedPath) (path : TrackedPath)
    (untouched : touches path pair = false) : tracker.applyPair files pair path = files path := by
  simp only [touches, Bool.or_eq_false_iff, decide_eq_false_iff_not] at untouched
  obtain ⟨notLeft, notRight⟩ := untouched
  rw [applyPair, Function.update_of_ne (Ne.symm notRight)]
  split
  · rfl
  · exact Function.update_of_ne (Ne.symm notLeft) _ _

theorem applyPair_touched (pair : TrackedPath × TrackedPath) (path : TrackedPath)
    (shows : tracker.PairOf path pair) :
    tracker.applyPair files pair path = tracker.currentAt path := by
  have touched := shows.touched
  simp only [touches, Bool.or_eq_true, decide_eq_true_eq] at touched
  by_cases isRight : pair.2 = path
  · subst isRight
    rw [applyPair, Function.update_self]
  · have isLeft : pair.1 = path := touched.resolve_right isRight
    have proper : pair.1 ≠ pair.2 := fun same => isRight (same ▸ isLeft)
    rw [applyPair, Function.update_of_ne (Ne.symm isRight), if_neg proper, ← isLeft,
      Function.update_self, shows.vacated proper]

/-- A path that one pair touches ends with its current content, a path that
none touches keeps what it has. -/
theorem applyPairs_eq (pairs : List (TrackedPath × TrackedPath)) (files : Files)
    (shows : ∀ pair ∈ pairs, touches path pair = true → tracker.PairOf path pair) :
    (pairs.foldl tracker.applyPair files) path =
    if pairs.filter (touches path) = [] then files path else tracker.currentAt path := by
  induction pairs generalizing files with
  | nil => rfl
  | cons pair rest ih =>
    have restShows : ∀ other ∈ rest, touches path other = true → tracker.PairOf path other :=
      fun other mem => shows other (mem_cons_of_mem _ mem)
    rw [foldl_cons, ih _ restShows]
    cases hit : touches path pair with
    | true =>
      have set := tracker.applyPair_touched files pair path (shows pair mem_cons_self hit)
      simp [hit, set]
    | false =>
      have kept := tracker.applyPair_untouched files pair path hit
      rw [filter_cons_of_neg (by simp [hit]), kept]

/-- After any consistent deltas, the maps of the tracker are the files before
and after at every tracked path, nothing has happened at any other path, and
the rendered pairs, each tracked path in exactly one of them, lead from the one
to the other.  A pair of equal contents, as of a pure rename, is rendered as no text. -/
theorem turnDiff_reflects_files (displayRoots : FiniteMap Text PathUri) (initial : Files)
    (deltas : List TrackedDelta) (consistent : ConsistentDeltas initial deltas)
    (rendering : DiffRendering) (order : MapOrder) :
    let tracker := (withEnvironmentDisplayRoots displayRoots).trackDeltas deltas
    let files := replayDeltas initial deltas
    let pairs := tracker.renderedPairs rendering order
    (∀ path, tracker.tracks path = true →
        tracker.baselineAt path = initial path ∧ tracker.currentAt path = files path) ∧
      (∀ path, tracker.tracks path = false → files path = initial path) ∧
      (∀ path, tracker.tracks path = true → (pairs.filter (touches path)).length = 1) ∧
      pairs.foldl tracker.applyPair (tracker.restrict initial) = tracker.restrict files := by
  intro tracker files pairs
  have reflects : tracker.Reflects initial files :=
    trackDeltas_reflects deltas initial initial _ rfl (new_reflects initial displayRoots) consistent
  have shows : ∀ path, ∀ pair ∈ pairs, touches path pair = true → tracker.PairOf path pair :=
    fun path pair rendered touched =>
      tracker.renderedPairs_pairOf rendering order pair rendered path touched
  refine ⟨fun path known => ⟨reflects.baseline path known, reflects.current path known⟩,
    reflects.untouched, ?_, ?_⟩
  · intro path known
    obtain ⟨pair, single⟩ := tracker.renderedPairs_filter_touches rendering order path known
    rw [single]
    rfl
  · funext path
    rw [tracker.applyPairs_eq path pairs _ (shows path)]
    cases known : tracker.tracks path with
    | true =>
      obtain ⟨pair, single⟩ := tracker.renderedPairs_filter_touches rendering order path known
      have someTouch : pairs.filter (touches path) ≠ [] := by
        rw [single]
        exact cons_ne_nil _ _
      rw [if_neg someTouch, restrict, known, if_pos rfl]
      exact reflects.current path known
    | false =>
      have noTouch : pairs.filter (touches path) = [] := by
        refine filter_eq_nil_iff.mpr fun pair rendered touched => ?_
        have both := (shows path pair rendered touched).tracked
        simp only [touches, Bool.or_eq_true, decide_eq_true_eq] at touched
        rcases touched with rfl | rfl
        · rw [both.1] at known
          contradiction
        · rw [both.2] at known
          contradiction
      rw [if_pos noTouch]
      simp [restrict, known]

def plainRendering : DiffRendering where
  relativePathFrom := fun _ _ => none
  inferredNativePathString := fun path => path.text
  gitBlobOid := fun _ => []
  unifiedDiff := fun _ _ _ _ => []

def entryOrder : MapOrder where
  baselinePaths := ⟨id, fun _ => List.Perm.refl _⟩
  currentPaths := ⟨id, fun _ => List.Perm.refl _⟩
  origins := ⟨id, fun _ => List.Perm.refl _⟩

def movedFile : TrackedDelta where
  environmentId := []
  delta := ⟨[⟨⟨['a']⟩, .update (some ⟨['b']⟩) ['x'] none ['y']⟩], true⟩
  rendering := plainRendering
  order := entryOrder

theorem moved_file_is_one_pair :
    let initial : Files := fun path => if path = ⟨[], ⟨['a']⟩⟩ then some ['x'] else none
    let tracker := (withEnvironmentDisplayRoots ∅).trackDeltas [movedFile]
    tracker.renderedPairs plainRendering entryOrder =
        [(⟨[], ⟨['a']⟩⟩, ⟨[], ⟨['b']⟩⟩)] ∧
      (tracker.renderedPairs plainRendering entryOrder).foldl tracker.applyPair
          (tracker.restrict initial) =
        tracker.restrict (replayDeltas initial [movedFile]) := by
  intro initial tracker
  have consistent : ConsistentDeltas initial [movedFile] :=
    ⟨rfl, ⟨⟨rfl, rfl, by decide⟩, trivial⟩, trivial⟩
  exact ⟨by decide, (turnDiff_reflects_files ∅ initial [movedFile] consistent plainRendering
    entryOrder).2.2.2⟩

end TurnDiffTracker

end CodexFormal.TurnDiff
