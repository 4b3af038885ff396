import Mathlib.Data.List.Perm.Basic
import CodexFormal.Foundation.Machine

/-!
# Resident sub-agents

A thread slot is reserved under a lock, and a full list makes the caller unload
its least recently used thread.  The candidate leaves the list before the
asynchronous checks that may put it back, so the calls are modelled as tasks
that stop at every lock and at every await.
-/

set_option autoImplicit false

namespace CodexFormal.AgentControl

open Foundation List Option

variable {ThreadId : Type}

section

variable [DecidableEq ThreadId]

structure V2ResidencyState (ThreadId : Type) where
  residents : List ThreadId
  pendingSlots : Nat
deriving Repr, DecidableEq

def touchResident (residents : List ThreadId) (threadId : ThreadId) : List ThreadId :=
  residents.filter (fun resident => resident ≠ threadId) ++ [threadId]

namespace V2ResidencyState

/-- The sum saturates in the source, which no capacity can tell from this. -/
def tryReservePendingSlot (capacity : Nat) (state : V2ResidencyState ThreadId) :
    Option (V2ResidencyState ThreadId) :=
  if capacity ≤ state.residents.length + state.pendingSlots then none
  else some { state with pendingSlots := state.pendingSlots + 1 }

def scanCandidates (protectedThreadId : Option ThreadId) :
    Nat → List ThreadId → Option ThreadId × List ThreadId
  | 0, residents => (none, residents)
  | _ + 1, [] => (none, [])
  | scans + 1, candidate :: rest =>
    if some candidate = protectedThreadId then
      scanCandidates protectedThreadId scans (rest ++ [candidate])
    else (some candidate, rest)

def popLruCandidate (protectedThreadId : Option ThreadId) (state : V2ResidencyState ThreadId) :
    Option ThreadId × V2ResidencyState ThreadId :=
  let scanned := scanCandidates protectedThreadId state.residents.length state.residents
  (scanned.1, { state with residents := scanned.2 })

variable (state : V2ResidencyState ThreadId)

def touch (threadId : ThreadId) : V2ResidencyState ThreadId :=
  { state with residents := touchResident state.residents threadId }

def remove (threadId : ThreadId) : V2ResidencyState ThreadId :=
  { state with residents := state.residents.filter fun resident => resident ≠ threadId }

def commitSlot (threadId : ThreadId) : V2ResidencyState ThreadId :=
  { residents := touchResident state.residents threadId, pendingSlots := state.pendingSlots - 1 }

def releasePendingSlot : V2ResidencyState ThreadId :=
  { state with pendingSlots := state.pendingSlots - 1 }

end V2ResidencyState

/-- What the awaits on a candidate come to. -/
inductive UnloadOutcome where
  | gone
  | notUnloadable
  | shutdownFailed
  | unloaded
deriving Repr, DecidableEq

/-- Where a `reserve_slot` call stands between two locks. -/
inductive ReserveStage (ThreadId : Type) where
  | reserving
  | counting
  | scanning (remaining : Nat)
  | examining (candidate : ThreadId) (remaining : Nat)
  | returned (granted : Bool)
deriving Repr, DecidableEq

structure ReserveCall (ThreadId : Type) where
  protectedThreadId : Option ThreadId
  stage : ReserveStage ThreadId
deriving Repr, DecidableEq

def ReserveCall.candidate (call : ReserveCall ThreadId) : Option ThreadId :=
  match call.stage with
  | .examining candidate _ => some candidate
  | _ => none

/-- A slot holds nothing but its right to one pending slot, so the live ones are
counted.  `loaded` lists the threads from their commit until they are unloaded,
removed or found gone. -/
structure ResidencyWorld (ThreadId : Type) where
  state : V2ResidencyState ThreadId
  calls : List (ReserveCall ThreadId)
  liveSlots : Nat
  loaded : List ThreadId
deriving Repr, DecidableEq

inductive ResidencyAction (ThreadId : Type) where
  | callReserve (protectedThreadId : Option ThreadId)
  | tryReserve (call : Nat)
  | residentCount (call : Nat)
  | popCandidate (call : Nat)
  | finishExamination (call : Nat) (outcome : UnloadOutcome)
  | commit (threadId : ThreadId)
  | dropSlot
  | remove (threadId : ThreadId)
deriving Repr, DecidableEq

def ResidencyAction.reserves : ResidencyAction ThreadId → Bool
  | .tryReserve _ => true
  | _ => false

namespace ResidencyWorld

def empty : ResidencyWorld ThreadId :=
  { state := { residents := [], pendingSlots := 0 }, calls := [], liveSlots := 0, loaded := [] }

section

variable (world : ResidencyWorld ThreadId)

def advance (call : Nat) (stage : ReserveStage ThreadId) : ResidencyWorld ThreadId :=
  { world with calls := world.calls.modify call fun current => { current with stage := stage } }

def unload (threadId : ThreadId) : ResidencyWorld ThreadId :=
  { world with loaded := world.loaded.filter fun other => other ≠ threadId }

def withState (state : V2ResidencyState ThreadId) : ResidencyWorld ThreadId :=
  { world with state := state }

end

def tryReserve (capacity : Nat) (world : ResidencyWorld ThreadId) (call : Nat) :
    ResidencyWorld ThreadId :=
  match world.state.tryReservePendingSlot capacity with
  | some state =>
    { (world.withState state).advance call (.returned true) with
      liveSlots := world.liveSlots + 1 }
  | none => world.advance call .counting

def popCandidate (world : ResidencyWorld ThreadId) (call : Nat)
    (protectedThreadId : Option ThreadId) (remaining : Nat) : ResidencyWorld ThreadId :=
  match remaining with
  | 0 => world.advance call (.returned false)
  | remaining + 1 =>
    match world.state.popLruCandidate protectedThreadId with
    | (some candidate, state) =>
      (world.withState state).advance call (.examining candidate remaining)
    | (none, state) => (world.withState state).advance call (.returned false)

def finishExamination (world : ResidencyWorld ThreadId) (call : Nat) (candidate : ThreadId)
    (remaining : Nat) : UnloadOutcome → ResidencyWorld ThreadId
  | .gone => (world.unload candidate).advance call (.scanning remaining)
  | .notUnloadable | .shutdownFailed =>
    (world.withState (world.state.touch candidate)).advance call (.scanning remaining)
  | .unloaded => (world.unload candidate).advance call .reserving

def step (capacity : Nat) (world : ResidencyWorld ThreadId) :
    ResidencyAction ThreadId → Option (ResidencyWorld ThreadId)
  | .callReserve protectedThreadId =>
    some { world with calls := world.calls ++ [⟨protectedThreadId, .reserving⟩] }
  | .tryReserve call =>
    match world.calls[call]? with
    | some ⟨_, .reserving⟩ => some (world.tryReserve capacity call)
    | _ => none
  | .residentCount call =>
    match world.calls[call]? with
    | some ⟨_, .counting⟩ => some (world.advance call (.scanning world.state.residents.length))
    | _ => none
  | .popCandidate call =>
    match world.calls[call]? with
    | some ⟨protectedThreadId, .scanning remaining⟩ =>
      some (world.popCandidate call protectedThreadId remaining)
    | _ => none
  | .finishExamination call outcome =>
    match world.calls[call]? with
    | some ⟨_, .examining candidate remaining⟩ =>
      some (world.finishExamination call candidate remaining outcome)
    | _ => none
  | .commit threadId =>
    -- Only newly loaded threads are committed, each with a slot that is still live.
    if world.liveSlots = 0 ∨ threadId ∈ world.loaded then none
    else some { world with
      state := world.state.commitSlot threadId
      liveSlots := world.liveSlots - 1
      loaded := threadId :: world.loaded }
  | .dropSlot =>
    if world.liveSlots = 0 then none
    else some { world with
      state := world.state.releasePendingSlot
      liveSlots := world.liveSlots - 1 }
  | .remove threadId => some ((world.withState (world.state.remove threadId)).unload threadId)

section

variable (world : ResidencyWorld ThreadId)

/-- Loaded resident threads and pending slots. -/
def demand : Nat :=
  world.loaded.length + world.state.pendingSlots

def suspendedEvictions : List ThreadId :=
  world.calls.filterMap ReserveCall.candidate

/-- The loaded threads that suspended evictions have taken out of the list. -/
def takenOutThreads : List ThreadId :=
  world.loaded.filter fun threadId =>
    decide (threadId ∉ world.state.residents ∧ threadId ∈ world.suspendedEvictions)

end

end ResidencyWorld

def residencyMachine (capacity : Nat) :
    Machine (ResidencyWorld ThreadId) (ResidencyAction ThreadId) Empty where
  step world action := (world.step capacity action).map fun after => (after, [])

namespace V2ResidencyState

theorem mem_touchResident {residents : List ThreadId} {touched id : ThreadId} :
    id ∈ touchResident residents touched ↔ id ∈ residents ∨ id = touched := by
  by_cases same : id = touched <;> simp [touchResident, same]

theorem scanCandidates_perm (keptId : Option ThreadId) (scans : Nat)
    (residents : List ThreadId) : ((scanCandidates keptId scans residents).1.toList ++
    (scanCandidates keptId scans residents).2).Perm residents := by
  induction scans generalizing residents with
  | zero => exact List.Perm.refl _
  | succ scans ih =>
    cases residents with
    | nil => exact List.Perm.refl _
    | cons candidate rest =>
      unfold scanCandidates
      split
      · exact (ih (rest ++ [candidate])).trans perm_append_comm
      · exact List.Perm.refl _

theorem mem_popLruCandidate (keptId : Option ThreadId)
    (state : V2ResidencyState ThreadId) (id : ThreadId)
    (resident : id ∈ state.residents) : (state.popLruCandidate keptId).1 = some id ∨
    id ∈ (state.popLruCandidate keptId).2.residents := by
  have kept := (scanCandidates_perm keptId state.residents.length
    state.residents).mem_iff.mpr resident
  rcases mem_append.mp kept with popped | kept
  · exact Or.inl (mem_toList.mp popped)
  · exact Or.inr kept

end V2ResidencyState

end

namespace ResidencyWorld

open V2ResidencyState

variable (world : ResidencyWorld ThreadId) (id : ThreadId)

theorem mem_suspendedEvictions : id ∈ world.suspendedEvictions ↔
    ∃ (call : Nat) (found : ReserveCall ThreadId),
    world.calls[call]? = some found ∧ found.candidate = some id := by
  unfold suspendedEvictions
  rw [mem_filterMap]
  constructor
  · rintro ⟨found, mem, candidate⟩
    obtain ⟨call, isAt⟩ := mem_iff_getElem?.mp mem
    exact ⟨call, found, isAt, candidate⟩
  · rintro ⟨call, found, isAt, candidate⟩
    exact ⟨found, mem_iff_getElem?.mpr ⟨call, isAt⟩, candidate⟩

variable {world} in
theorem suspended_advance {call : Nat} {now : ReserveCall ThreadId} (stage : ReserveStage ThreadId)
    {id : ThreadId} (isAt : world.calls[call]? = some now)
    (suspended : id ∈ world.suspendedEvictions) (notHeld : now.candidate ≠ some id) :
    id ∈ (world.advance call stage).suspendedEvictions := by
  obtain ⟨other, found, foundAt, candidate⟩ := (mem_suspendedEvictions _ _).mp suspended
  refine (mem_suspendedEvictions _ _).mpr ⟨other, found, ?_, candidate⟩
  by_cases same : call = other
  · subst same
    cases isAt.symm.trans foundAt
    exact absurd candidate notHeld
  · simp [advance, foundAt, same]

variable (call remaining : Nat)

theorem suspended_examining (now : ReserveCall ThreadId) (candidate : ThreadId)
    (isAt : world.calls[call]? = some now) :
    candidate ∈ (world.advance call (.examining candidate remaining)).suspendedEvictions := by
  refine (mem_suspendedEvictions _ _).mpr ⟨call, { now with
    stage := .examining candidate remaining }, ?_, rfl⟩
  simp [advance, isAt]

theorem demand_tryReserve (cap : Nat) : (world.tryReserve cap call).demand =
      if world.state.residents.length + world.state.pendingSlots < cap then world.demand + 1
      else world.demand := by
  unfold tryReserve tryReservePendingSlot
  by_cases full : cap ≤ world.state.residents.length + world.state.pendingSlots
  · rw [if_pos full, if_neg (Nat.not_lt.mpr full)]
    rfl
  · rw [if_neg full, if_pos (Nat.not_le.mp full)]
    rfl

/-- Every live slot is pending, and no loaded thread is forgotten or counted twice: it is
listed or an eviction is examining it. -/
structure Accounted (world : ResidencyWorld ThreadId) : Prop where
  pending : world.state.pendingSlots = world.liveSlots
  located : ∀ threadId ∈ world.loaded,
    threadId ∈ world.state.residents ∨ threadId ∈ world.suspendedEvictions
  distinct : world.loaded.Nodup

theorem accounted_empty : Accounted (empty : ResidencyWorld ThreadId) where
  pending := rfl
  distinct := .nil
  located := by
    intro id loaded
    cases loaded

section

variable {world} (counted : Accounted world)

include counted

theorem Accounted.advance (call : Nat) (now : ReserveCall ThreadId) (stage : ReserveStage ThreadId)
    (isAt : world.calls[call]? = some now) (noneHeld : now.candidate = none) :
    Accounted (world.advance call stage) where
  pending := counted.pending
  distinct := counted.distinct
  located id loaded := (counted.located id loaded).imp_right fun suspended =>
    suspended_advance stage isAt suspended (by simp [noneHeld])

theorem Accounted.tryReserve (capacity call : Nat) (now : ReserveCall ThreadId)
    (isAt : world.calls[call]? = some now) (noneHeld : now.candidate = none) :
    Accounted (world.tryReserve capacity call) := by
  unfold ResidencyWorld.tryReserve tryReservePendingSlot
  split
  next state reserved =>
    split at reserved
    · cases reserved
    · cases reserved
      have moved := counted.advance call now (.returned true) isAt noneHeld
      exact ⟨congrArg (· + 1) counted.pending, moved.located, counted.distinct⟩
  · exact counted.advance call now .counting isAt noneHeld

variable [DecidableEq ThreadId]

theorem Accounted.popCandidate
    (call remaining : Nat) (keptId : Option ThreadId) (now : ReserveCall ThreadId)
    (isAt : world.calls[call]? = some now) (noneHeld : now.candidate = none) :
    Accounted (world.popCandidate call keptId remaining) := by
  cases remaining with
  | zero => exact counted.advance call now (.returned false) isAt noneHeld
  | succ remaining =>
    have popped := fun id resident =>
      mem_popLruCandidate keptId world.state id resident
    have pending : (world.state.popLruCandidate keptId).2.pendingSlots =
      world.liveSlots := counted.pending
    unfold ResidencyWorld.popCandidate
    generalize world.state.popLruCandidate keptId = res at popped pending
    obtain ⟨candidate, state⟩ := res
    cases candidate with
    | none =>
      have kept : Accounted (world.withState state) := by
        refine ⟨pending, fun id loaded => ?_, counted.distinct⟩
        refine (counted.located id loaded).imp_left fun listed => ?_
        exact (popped id listed).resolve_left (fun gone => by cases gone)
      exact kept.advance call now (.returned false) isAt noneHeld
    | some candidate =>
      refine ⟨pending, fun id loaded => ?_, counted.distinct⟩
      rcases counted.located id loaded with listed | suspended
      · rcases popped id listed with taken | kept
        · cases taken
          exact Or.inr (suspended_examining (world.withState state) call remaining now
            candidate isAt)
        · exact Or.inl kept
      · exact Or.inr (suspended_advance _ isAt suspended (by simp [noneHeld]))

theorem Accounted.finishExamination (call remaining : Nat) (now : ReserveCall ThreadId)
    (candidate : ThreadId) (outcome : UnloadOutcome)
    (isAt : world.calls[call]? = some now) (holds : now.candidate = some candidate) :
    Accounted (world.finishExamination call candidate remaining outcome) := by
  have unloaded : ∀ stage, Accounted ((world.unload candidate).advance call stage) := by
    intro stage
    refine ⟨counted.pending, fun id loaded => ?_, counted.distinct.filter _⟩
    obtain ⟨loaded, other⟩ := mem_filter.mp loaded
    refine (counted.located id loaded).imp_right fun suspended => ?_
    refine suspended_advance stage isAt suspended fun own => ?_
    cases holds.symm.trans own
    simp at other
  have hit : ∀ stage,
      Accounted ((world.withState (world.state.touch candidate)).advance call stage) := by
    intro stage
    refine ⟨counted.pending, fun id loaded => ?_, counted.distinct⟩
    by_cases same : id = candidate
    · exact Or.inl (mem_touchResident.mpr (.inr same))
    · refine (counted.located id loaded).imp (fun listed => ?_) fun suspended => ?_
      · exact mem_touchResident.mpr (.inl listed)
      · exact suspended_advance stage isAt suspended (by simp [holds, Ne.symm same])
  cases outcome with
  | notUnloadable => exact hit _
  | shutdownFailed => exact hit _
  | _ => exact unloaded _

theorem Accounted.commit (id : ThreadId) (fresh : id ∉ world.loaded) :
    Accounted { world with
      state := world.state.commitSlot id
      liveSlots := world.liveSlots - 1
      loaded := id :: world.loaded } where
  pending := congrArg (· - 1) counted.pending
  distinct := nodup_cons.mpr ⟨fresh, counted.distinct⟩
  located := by
    intro other loaded
    rcases mem_cons.mp loaded with rfl | loaded
    · exact Or.inl (mem_touchResident.mpr (.inr rfl))
    · exact (counted.located other loaded).imp_left fun listed =>
        mem_touchResident.mpr (.inl listed)

theorem Accounted.remove (id : ThreadId) :
    Accounted ((world.withState (world.state.remove id)).unload id) where
  pending := counted.pending
  distinct := counted.distinct.filter _
  located := by
    intro other loaded
    obtain ⟨loaded, kept⟩ := mem_filter.mp loaded
    exact (counted.located other loaded).imp_left fun listed =>
      mem_filter.mpr ⟨listed, kept⟩

end

variable [DecidableEq ThreadId]

/-- What each action may do, with the call that it moves on. -/
inductive StepEffect (capacity : Nat) (world : ResidencyWorld ThreadId) :
    ResidencyAction ThreadId → ResidencyWorld ThreadId → Prop where
  | called (protectedThreadId : Option ThreadId) :
      StepEffect capacity world (.callReserve protectedThreadId)
        { world with calls := world.calls ++ [⟨protectedThreadId, .reserving⟩] }
  | reserved (call : Nat) (current : ReserveCall ThreadId)
      (isAt : world.calls[call]? = some current) (holdsNone : current.candidate = none) :
      StepEffect capacity world (.tryReserve call) (world.tryReserve capacity call)
  | counted (call : Nat) (current : ReserveCall ThreadId)
      (isAt : world.calls[call]? = some current) (holdsNone : current.candidate = none) :
      StepEffect capacity world (.residentCount call)
        (world.advance call (.scanning world.state.residents.length))
  | popped (call : Nat) (current : ReserveCall ThreadId) (remaining : Nat)
      (isAt : world.calls[call]? = some current) (holdsNone : current.candidate = none) :
      StepEffect capacity world (.popCandidate call)
        (world.popCandidate call current.protectedThreadId remaining)
  | finished (call : Nat) (current : ReserveCall ThreadId) (candidate : ThreadId)
      (remaining : Nat) (outcome : UnloadOutcome)
      (isAt : world.calls[call]? = some current) (holds : current.candidate = some candidate) :
      StepEffect capacity world (.finishExamination call outcome)
        (world.finishExamination call candidate remaining outcome)
  | committed (threadId : ThreadId) (live : world.liveSlots ≠ 0)
      (fresh : threadId ∉ world.loaded) :
      StepEffect capacity world (.commit threadId)
        { world with
          state := world.state.commitSlot threadId
          liveSlots := world.liveSlots - 1
          loaded := threadId :: world.loaded }
  | dropped (live : world.liveSlots ≠ 0) :
      StepEffect capacity world .dropSlot
        { world with
          state := world.state.releasePendingSlot
          liveSlots := world.liveSlots - 1 }
  | removed (threadId : ThreadId) :
      StepEffect capacity world (.remove threadId)
        ((world.withState (world.state.remove threadId)).unload threadId)

open StepEffect

theorem step_effect (capacity : Nat) (world after : ResidencyWorld ThreadId)
    (act : ResidencyAction ThreadId) (ran : world.step capacity act = some after) :
    StepEffect capacity world act after := by
  cases act with
  | callReserve keptId =>
    cases some.inj ran
    exact called keptId
  | tryReserve call =>
    simp only [step] at ran
    split at ran
    next isAt =>
      cases some.inj ran
      exact reserved call _ isAt rfl
    · cases ran
  | residentCount call =>
    simp only [step] at ran
    split at ran
    next isAt =>
      cases some.inj ran
      exact counted call _ isAt rfl
    · cases ran
  | popCandidate call =>
    simp only [step] at ran
    split at ran
    next remaining isAt =>
      cases some.inj ran
      exact popped call _ remaining isAt rfl
    · cases ran
  | finishExamination call outcome =>
    simp only [step] at ran
    split at ran
    next candidate remaining isAt =>
      cases some.inj ran
      exact finished call _ candidate remaining outcome isAt rfl
    · cases ran
  | commit id =>
    simp only [step] at ran
    split at ran
    · cases ran
    next enabled =>
      cases some.inj ran
      exact committed id (not_or.mp enabled).1 (not_or.mp enabled).2
  | dropSlot =>
    simp only [step] at ran
    split at ran
    · cases ran
    next live =>
      cases some.inj ran
      exact dropped live
  | remove id =>
    cases some.inj ran
    exact removed id

variable {cap : Nat}

theorem StepEffect.of_reserves {world after : ResidencyWorld ThreadId}
    {act : ResidencyAction ThreadId} (effect : StepEffect cap world act after)
    (reserves : act.reserves = true) : ∃ call, after = world.tryReserve cap call := by
  cases effect with
  | reserved call now isAt noneHeld => exact ⟨call, rfl⟩
  | _ => cases reserves

theorem Accounted.step {world after : ResidencyWorld ThreadId}
    {act : ResidencyAction ThreadId} (accounted : Accounted world)
    (effect : StepEffect cap world act after) : Accounted after := by
  cases effect with
  | called keptId =>
    refine ⟨accounted.pending, fun id loaded => ?_, accounted.distinct⟩
    refine (accounted.located id loaded).imp_right fun suspended => ?_
    unfold suspendedEvictions
    rw [filterMap_append]
    exact mem_append_left _ suspended
  | reserved call now isAt noneHeld =>
    exact accounted.tryReserve cap call now isAt noneHeld
  | counted call now isAt noneHeld =>
    exact accounted.advance call now _ isAt noneHeld
  | popped call now remaining isAt noneHeld =>
    exact accounted.popCandidate call remaining _ now isAt noneHeld
  | finished call now candidate remaining outcome isAt holds =>
    exact accounted.finishExamination call remaining now candidate outcome isAt holds
  | committed id live fresh => exact accounted.commit id fresh
  | dropped live =>
    exact ⟨congrArg (· - 1) accounted.pending, accounted.located, accounted.distinct⟩
  | removed id => exact accounted.remove id

theorem demand_unload : (world.unload id).demand ≤ world.demand :=
  Nat.add_le_add_right (length_filter_le _ _) _

theorem demand_popCandidate (keptId : Option ThreadId) :
    (world.popCandidate call keptId remaining).demand = world.demand := by
  cases remaining with
  | zero => rfl
  | succ remaining =>
    unfold popCandidate popLruCandidate
    cases scanCandidates keptId world.state.residents.length world.state.residents with
    | mk candidate rest => cases candidate <;> rfl

theorem demand_finishExamination (candidate : ThreadId) (outcome : UnloadOutcome) :
    (world.finishExamination call candidate remaining outcome).demand ≤ world.demand := by
  cases outcome with
  | notUnloadable => exact Nat.le_refl _
  | shutdownFailed => exact Nat.le_refl _
  | _ => exact demand_unload world candidate

theorem demand_step {world after : ResidencyWorld ThreadId}
    {act : ResidencyAction ThreadId} (accounted : Accounted world)
    (effect : StepEffect cap world act after)
    (noReservation : act.reserves = false) : after.demand ≤ world.demand := by
  cases effect with
  | reserved call now isAt noneHeld => cases noReservation
  | popped call now remaining isAt noneHeld =>
    exact Nat.le_of_eq (demand_popCandidate world call remaining _)
  | finished call now candidate remaining outcome isAt holds =>
    exact demand_finishExamination world call remaining candidate outcome
  | committed id live fresh =>
    have pending := accounted.pending
    simp only [demand, commitSlot, length_cons]
    omega
  | dropped live => exact Nat.add_le_add_left (Nat.sub_le _ _) _
  | removed id => exact demand_unload (world.withState _) id
  | _ => exact Nat.le_refl _

/-- The list has room for every loaded thread that is not taken out of it. -/
theorem Accounted.loaded_length_le {world : ResidencyWorld ThreadId} (accounted : Accounted world) :
    world.loaded.length ≤ world.state.residents.length + world.takenOutThreads.length := by
  have split := length_eq_length_filter_add
    (fun id => decide (id ∈ world.state.residents)) (l := world.loaded)
  have same : (world.loaded.filter fun id => !decide (id ∈ world.state.residents)) =
      world.takenOutThreads := by
    refine filter_congr fun id loaded => ?_
    have located := accounted.located id loaded
    by_cases listed : id ∈ world.state.residents
    · simp [listed]
    · simp [listed, located.resolve_left listed]
  have listed : (world.loaded.filter fun id =>
      decide (id ∈ world.state.residents)).length ≤ world.state.residents.length := by
    refine (subperm_of_subset (accounted.distinct.filter _) fun id mem => ?_).length_le
    exact of_decide_eq_true (mem_filter.mp mem).2
  rw [split, same]
  exact Nat.add_le_add_right listed _

end ResidencyWorld

open ResidencyWorld

variable [DecidableEq ThreadId]

theorem residencyMachine_effect {capacity : Nat} {world after : ResidencyWorld ThreadId}
    {act : ResidencyAction ThreadId} {outputs : List Empty}
    (ran : (residencyMachine capacity).step world act = some (after, outputs)) :
    StepEffect capacity world act after := by
  obtain ⟨found, found_eq, res⟩ := map_eq_some_iff.mp ran
  cases res
  exact step_effect capacity world _ act found_eq

theorem residencyMachine_preserves_accounted (capacity : Nat) :
    (residencyMachine capacity).Preserves (Accounted : ResidencyWorld ThreadId → Prop) :=
  fun _ _ _ _ accounted ran => accounted.step (residencyMachine_effect ran)

/-- Loaded threads and pending slots stay within the capacity along every run in which no slot
is granted while an eviction has a loaded thread taken out of the list: the check counts the
threads that are listed. -/
theorem withinCapacity_of_noneTakenOut (capacity : Nat) (actions : List (ResidencyAction ThreadId))
    (taken : List (Taken (ResidencyWorld ThreadId) (ResidencyAction ThreadId) Empty))
    (traced : (residencyMachine capacity).trace empty actions = some taken)
    (schedule : ∀ event ∈ taken, event.label.reserves = true →
      event.before.state.residents.length + event.before.state.pendingSlots < capacity →
      event.before.takenOutThreads = []) :
    ∀ event ∈ taken, event.after.loaded.length + event.after.state.pendingSlots ≤ capacity := by
  have facts := (residencyMachine capacity).trace_preserves Accounted
    (residencyMachine_preserves_accounted capacity) actions empty taken accounted_empty traced
  refine (residencyMachine capacity).trace_carries (fun world => world.demand ≤ capacity) actions
    empty taken (Nat.zero_le _) traced ?_
  intro event mem bound
  obtain ⟨accounted, ran⟩ := facts event mem
  have effect := residencyMachine_effect ran
  cases reserves : event.label.reserves with
  | true =>
    obtain ⟨call, same⟩ := effect.of_reserves reserves
    change event.after.demand ≤ capacity
    rw [same, demand_tryReserve]
    split
    next room =>
      have counted := accounted.loaded_length_le
      rw [schedule event mem reserves room, length_nil] at counted
      unfold demand
      omega
    · exact bound
  | false => exact Nat.le_trans (demand_step accounted effect reserves) bound

/-- While the only resident is examined for unloading, another call takes its place. -/
def reservationDuringEviction : List (ResidencyAction Nat) :=
  [.callReserve none, .tryReserve 0, .commit 7,
    .callReserve none, .tryReserve 1, .residentCount 1, .popCandidate 1,
    .callReserve none, .tryReserve 2]

theorem reservationDuringEviction_exceeds_capacity :
    ∃ taken, (residencyMachine 1).trace empty reservationDuringEviction = some taken ∧
      ∃ event ∈ taken, 1 < event.after.loaded.length + event.after.state.pendingSlots :=
  ⟨_, rfl, by decide⟩

def reservationAfterEviction : List (ResidencyAction Nat) :=
  [.callReserve none, .tryReserve 0, .commit 7,
    .callReserve none, .tryReserve 1, .residentCount 1, .popCandidate 1,
    .finishExamination 1 .unloaded, .tryReserve 1]

theorem reservationAfterEviction_within_capacity :
    ∃ taken, (residencyMachine 1).trace empty reservationAfterEviction = some taken ∧
      ∀ event ∈ taken, event.after.loaded.length + event.after.state.pendingSlots ≤ 1 :=
  ⟨_, rfl, withinCapacity_of_noneTakenOut 1 reservationAfterEviction _ rfl (by decide)⟩

end CodexFormal.AgentControl
