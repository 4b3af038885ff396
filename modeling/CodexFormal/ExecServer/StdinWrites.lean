import Mathlib.Data.List.Dedup
import Mathlib.Data.List.Perm.Subperm
import CodexFormal.Patch.Text

/-!
# Retried writes to stdin

A write carries an id, and a server that has accepted the id answers a retry
without writing again.  The id is looked up before and after the wait for room
in the channel, so a call is modelled as a task that stops at every await, where
it may also be cancelled; the last stop to the answer is one step.
-/

set_option autoImplicit false

namespace CodexFormal.ExecServer

open List

open Patch (Text)

def retainedStdinWriteIdsPerProcess : Nat := 4096

structure AcceptedStdinWriteIds where
  ids : List Text
  order : List Text
deriving Repr, DecidableEq

namespace AcceptedStdinWriteIds

variable (accepted : AcceptedStdinWriteIds)

def contains (writeId : Text) : Bool :=
  decide (writeId ∈ accepted.ids)

/-- The loop at the end of `remember`. -/
def evict (ids : List Text) : List Text → AcceptedStdinWriteIds
  | [] => ⟨ids, []⟩
  | evicted :: order =>
    if retainedStdinWriteIdsPerProcess < order.length + 1 then
      evict (ids.filter fun id => id ≠ evicted) order
    else ⟨ids, evicted :: order⟩

def remember (writeId : Text) : AcceptedStdinWriteIds :=
  if writeId ∈ accepted.ids then accepted
  else evict (writeId :: accepted.ids) (accepted.order ++ [writeId])

/-- The ids are the end of all ids handed over so far, and a full end once an id was evicted. -/
structure Remembers (accepted : AcceptedStdinWriteIds) (handed : List Text) : Prop where
  same : ∀ id, id ∈ accepted.ids ↔ id ∈ accepted.order
  distinct : accepted.order.Nodup
  recent : ∃ evicted, handed = evicted ++ accepted.order ∧
    (evicted ≠ [] → retainedStdinWriteIdsPerProcess ≤ accepted.order.length)

theorem remembers_evict (ids order handed out : List Text)
    (same : ∀ id, id ∈ ids ↔ id ∈ order) (uniq : order.Nodup) (split : handed = out ++ order)
    (full : out ≠ [] → retainedStdinWriteIdsPerProcess ≤ order.length) :
    Remembers (evict ids order) handed := by
  induction order generalizing ids out with
  | nil => exact ⟨same, uniq, out, split, full⟩
  | cons oldest rest ih =>
    obtain ⟨gone, distinctRest⟩ := nodup_cons.mp uniq
    rw [evict]
    split
    · apply ih _ (out ++ [oldest]) _ distinctRest
      · simpa using split
      · intro _
        omega
      · intro id
        have here := same id
        by_cases isOldest : id = oldest
        · subst isOldest
          simpa using gone
        · simpa [isOldest] using here
    · exact ⟨same, uniq, out, split, full⟩

variable {accepted : AcceptedStdinWriteIds} {handed : List Text} {writeId : Text}

theorem Remembers.remember (known : Remembers accepted handed) (fresh : writeId ∉ accepted.ids) :
    Remembers (accepted.remember writeId) (handed ++ [writeId]) := by
  obtain ⟨out, split, full⟩ := known.recent
  rw [AcceptedStdinWriteIds.remember, if_neg fresh]
  apply remembers_evict _ _ _ out
  · intro id
    simp [known.same id, or_comm]
  · have gone : writeId ∉ accepted.order := fun here => fresh ((known.same _).mpr here)
    simpa [nodup_append] using ⟨known.distinct, fun _ here same => gone (same ▸ here)⟩
  · rw [split, append_assoc]
  · intro some
    rw [length_append]
    exact Nat.le_add_right_of_le (full some)

/-- An id that was handed over and is no longer known has been followed by as
many other ids as are retained. -/
theorem Remembers.forgotten (known : Remembers accepted handed)
    (fresh : writeId ∉ accepted.ids) (earlier later : List Text)
    (isAt : handed = earlier ++ writeId :: later) :
    retainedStdinWriteIdsPerProcess ≤ (later.filter fun id => id ≠ writeId).dedup.length := by
  have gone : writeId ∉ accepted.order := fun here => fresh ((known.same _).mpr here)
  obtain ⟨out, split, full⟩ := known.recent
  have ends : accepted.order ⊆ later ∧ out ≠ [] := by
    rcases append_eq_append_iff.mp (split.symm.trans isAt) with
      ⟨gap, -, atOrder⟩ | ⟨gap, atEvicted, atLater⟩
    · exact absurd (by simp [atOrder]) gone
    · cases gap with
      | nil =>
        have whole : writeId :: later = accepted.order := atLater
        exact absurd (whole ▸ mem_cons_self) gone
      | cons head tail =>
        obtain ⟨-, rfl⟩ := cons.inj atLater
        exact ⟨subset_append_right _ _, by simp [atEvicted]⟩
  refine (full ends.2).trans (known.distinct.subperm ?_).length_le
  intro id here
  have other : id ≠ writeId := fun same => gone (same ▸ here)
  simpa [other] using ends.1 here

end AcceptedStdinWriteIds

inductive WriteStatus where
  | accepted
  | unknownProcess
  | starting
  | stdinClosed
deriving Repr, DecidableEq

inductive WriteError where
  | invalidParams (message : Text)
  | internalError (message : Text)
deriving Repr, DecidableEq

structure WriteParams where
  writeId : Text
  chunk : List UInt8
deriving Repr, DecidableEq

inductive ProcessEntry where
  | starting
  | running (tty pipeStdin : Bool)
deriving Repr, DecidableEq

/-- Where an `exec_write` call waits: for the process map, for the accepted ids,
for room in the channel, for the accepted ids again. -/
inductive WriteStage where
  | entered
  | checking
  | reserving
  | permitted
  | answered (status : WriteStatus)
  | failed (error : WriteError)
  | cancelled
deriving Repr, DecidableEq

structure WriteCall where
  params : WriteParams
  stage : WriteStage
deriving Repr, DecidableEq

/-- What a call has sent into the channel. -/
structure HandedWrite where
  call : Nat
  params : WriteParams
deriving Repr, DecidableEq

/-- One process: its entry in the map, the ids it has accepted, all that its stdin
channel was ever handed, and the calls in the order of their arrival. -/
structure StdinWrites where
  entry : Option ProcessEntry
  accepted : AcceptedStdinWriteIds
  channel : List HandedWrite
  calls : List WriteCall
deriving Repr, DecidableEq

inductive WriteAction where
  | setEntry (entry : Option ProcessEntry)
  | execWrite (params : WriteParams)
  | lookUp (call : Nat)
  | check (call : Nat)
  | reserve (call : Nat) (channelClosed : Bool)
  | send (call : Nat)
  | cancel (call : Nat)
deriving Repr, DecidableEq

def lookUpStage (entry : Option ProcessEntry) (params : WriteParams) : WriteStage :=
  if params.writeId = [] then .failed (.invalidParams "writeId must not be empty".toList)
  else
    match entry with
    | none => .answered .unknownProcess
    | some .starting => .answered .starting
    | some (.running tty pipeStdin) =>
      if !tty && !pipeStdin then .answered .stdinClosed else .checking

namespace StdinWrites

variable (entry : Option ProcessEntry)

def start : StdinWrites := ⟨entry, ⟨[], []⟩, [], []⟩

variable (writes : StdinWrites)

def advance (call : Nat) (stage : WriteStage) : StdinWrites :=
  { writes with calls := writes.calls.modify call fun current => { current with stage := stage } }

def step : WriteAction → Option StdinWrites
  | .setEntry entry => some { writes with entry := entry }
  | .execWrite params => some { writes with calls := writes.calls ++ [⟨params, .entered⟩] }
  | .lookUp call =>
    match writes.calls[call]? with
    | some ⟨params, .entered⟩ => some (writes.advance call (lookUpStage writes.entry params))
    | _ => none
  | .check call =>
    match writes.calls[call]? with
    | some ⟨params, .checking⟩ =>
      if writes.accepted.contains params.writeId then
        some (writes.advance call (.answered .accepted))
      else some (writes.advance call .reserving)
    | _ => none
  | .reserve call channelClosed =>
    match writes.calls[call]? with
    | some ⟨_, .reserving⟩ =>
      if channelClosed then
        some (writes.advance call
          (.failed (.internalError "failed to write to process stdin".toList)))
      else some (writes.advance call .permitted)
    | _ => none
  | .send call =>
    match writes.calls[call]? with
    | some ⟨params, .permitted⟩ =>
      if writes.accepted.contains params.writeId then
        some (writes.advance call (.answered .accepted))
      else
        some { writes.advance call (.answered .accepted) with
          accepted := writes.accepted.remember params.writeId
          channel := writes.channel ++ [⟨call, params⟩] }
    | _ => none
  | .cancel call =>
    match writes.calls[call]? with
    | some ⟨_, .answered _⟩ | some ⟨_, .failed _⟩ | none => none
    | some _ => some (writes.advance call .cancelled)

def handedIds : List Text :=
  writes.channel.map fun write => write.params.writeId

/-- Between two writes with one id as many other ids were handed over as are retained. -/
def HandedApart (handed : List Text) : Prop :=
  ∀ earlier writeId between later, handed = earlier ++ writeId :: (between ++ writeId :: later) →
    retainedStdinWriteIdsPerProcess ≤ (between.filter fun id => id ≠ writeId).dedup.length

structure Idempotent (writes : StdinWrites) : Prop where
  remembers : writes.accepted.Remembers writes.handedIds
  apart : HandedApart writes.handedIds
  carried : ∀ write ∈ writes.channel,
    (writes.calls[write.call]?).map WriteCall.params = some write.params
  handed : ∀ call ∈ writes.calls, call.stage = .answered .accepted →
    call.params.writeId ∈ writes.handedIds

theorem idempotent_start : (start entry).Idempotent where
  remembers := ⟨by simp [start], by simp [start], [], by simp [start, handedIds], by simp⟩
  apart := by
    intro earlier writeId between later split
    simp [start, handedIds] at split
  carried := by simp [start]
  handed := by simp [start]

variable {writes : StdinWrites}

theorem params_advance (call : Nat) (stage : WriteStage) (index : Nat) :
    ((writes.advance call stage).calls[index]?).map WriteCall.params =
    (writes.calls[index]?).map WriteCall.params := by
  rw [advance, getElem?_modify]
  cases writes.calls[index]? with
  | none => rfl
  | some now =>
    simp only [Option.map_eq_map, Option.map_some]
    split <;> rfl

theorem mem_calls_advance {call : Nat} {stage : WriteStage} {now moved : WriteCall}
    (found : writes.calls[call]? = some now) (mem : moved ∈ (writes.advance call stage).calls) :
    moved ∈ writes.calls ∨ moved = ⟨now.params, stage⟩ := by
  obtain ⟨index, loc⟩ := mem_iff_getElem?.mp mem
  rw [advance, getElem?_modify] at loc
  by_cases same : call = index
  · subst same
    rw [found] at loc
    exact .inr (by simpa using loc.symm)
  · left
    apply mem_of_getElem? (i := index)
    simpa [same] using loc

theorem Idempotent.advance (kept : writes.Idempotent) {call : Nat} {now : WriteCall}
    (found : writes.calls[call]? = some now) (stage : WriteStage)
    (handed : stage = .answered .accepted → now.params.writeId ∈ writes.handedIds) :
    (writes.advance call stage).Idempotent where
  remembers := kept.remembers
  apart := kept.apart
  carried write mem := (params_advance call stage write.call).trans (kept.carried write mem)
  handed moved mem answered := by
    rcases mem_calls_advance found mem with old | rfl
    · exact kept.handed moved old answered
    · exact handed answered

theorem HandedApart.snoc {handed : List Text} {writeId : Text} (apart : HandedApart handed)
    (forgotten : ∀ earlier later, handed = earlier ++ writeId :: later →
    retainedStdinWriteIdsPerProcess ≤ (later.filter fun id => id ≠ writeId).dedup.length) :
    HandedApart (handed ++ [writeId]) := by
  intro earlier other between later split
  rcases eq_nil_or_concat later with rfl | ⟨front, last, rfl⟩
  · have whole : handed ++ [writeId] = (earlier ++ other :: between) ++ [other] := by
      simpa using split
    obtain ⟨rfl, same⟩ := append_inj' whole rfl
    cases same
    exact forgotten earlier between rfl
  · have whole : handed ++ [writeId] =
        (earlier ++ other :: (between ++ other :: front)) ++ [last] := by
      simpa using split
    exact apart earlier other between front (append_inj' whole rfl).1

theorem Idempotent.send (kept : writes.Idempotent) {call : Nat} {params : WriteParams}
    {stage : WriteStage} (found : writes.calls[call]? = some ⟨params, stage⟩)
    (fresh : params.writeId ∉ writes.accepted.ids) :
    Idempotent { writes.advance call (.answered .accepted) with
      accepted := writes.accepted.remember params.writeId
      channel := writes.channel ++ [⟨call, params⟩] } := by
  have ids : (writes.channel ++ [HandedWrite.mk call params]).map
      (fun write => write.params.writeId) = writes.handedIds ++ [params.writeId] := by
    simp [handedIds]
  refine ⟨?_, ?_, ?_, ?_⟩
  · rw [handedIds, ids]
    exact kept.remembers.remember fresh
  · rw [handedIds, ids]
    exact kept.apart.snoc (kept.remembers.forgotten fresh)
  · intro write mem
    rw [params_advance]
    rcases mem_append.mp mem with old | new
    · exact kept.carried write old
    · rw [mem_singleton.mp new, found]
      rfl
  · intro moved mem answered
    rw [handedIds, ids, mem_append]
    rcases mem_calls_advance found mem with old | rfl
    · exact .inl (kept.handed moved old answered)
    · exact .inr (mem_singleton.mpr rfl)

theorem Idempotent.known (kept : writes.Idempotent) {writeId : Text}
    (contains : writes.accepted.contains writeId = true) : writeId ∈ writes.handedIds := by
  obtain ⟨out, split, -⟩ := kept.remembers.recent
  rw [split]
  apply mem_append_right
  exact (kept.remembers.same writeId).mp (of_decide_eq_true contains)

theorem lookUpStage_ne_accepted (params : WriteParams) :
    lookUpStage entry params ≠ .answered .accepted := by
  unfold lookUpStage
  split
  · simp
  · split
    · simp
    · simp
    · split <;> simp

theorem Idempotent.step {after : StdinWrites} (kept : writes.Idempotent) (act : WriteAction)
    (ran : writes.step act = some after) : after.Idempotent := by
  cases act with
  | setEntry entry =>
    cases ran
    exact ⟨kept.remembers, kept.apart, kept.carried, kept.handed⟩
  | execWrite params =>
    cases ran
    refine ⟨kept.remembers, kept.apart, ?_, ?_⟩
    · intro write mem
      have carried := kept.carried write mem
      obtain ⟨call, found, same⟩ := Option.map_eq_some_iff.mp carried
      rw [getElem?_append_left (List.getElem?_eq_some_iff.mp found).1]
      exact carried
    · intro call mem answered
      rcases mem_append.mp mem with old | new
      · exact kept.handed call old answered
      · rw [mem_singleton.mp new] at answered
        cases answered
  | lookUp call =>
    simp only [StdinWrites.step] at ran
    split at ran
    next params found =>
      cases ran
      exact kept.advance found _ fun answered => absurd answered (lookUpStage_ne_accepted _ _)
    · cases ran
  | check call =>
    simp only [StdinWrites.step] at ran
    split at ran
    next params found =>
      split at ran
      next contains =>
        cases ran
        exact kept.advance found _ fun _ => kept.known contains
      · cases ran
        exact kept.advance found _ nofun
    · cases ran
  | reserve call channelClosed =>
    simp only [StdinWrites.step] at ran
    split at ran
    next params found =>
      split at ran
      · cases ran
        exact kept.advance found _ nofun
      · cases ran
        exact kept.advance found _ nofun
    · cases ran
  | send call =>
    simp only [StdinWrites.step] at ran
    split at ran
    next params found =>
      split at ran
      next contains =>
        cases ran
        exact kept.advance found _ fun _ => kept.known contains
      next gone =>
        cases ran
        exact kept.send found fun here => gone (decide_eq_true here)
    · cases ran
  | cancel call =>
    simp only [StdinWrites.step] at ran
    split at ran
    · cases ran
    · cases ran
    · cases ran
    next now _ _ found =>
      cases ran
      exact kept.advance found _ nofun

theorem Idempotent.run {after : StdinWrites} (kept : writes.Idempotent)
    (actions : List WriteAction) (ran : actions.foldlM StdinWrites.step writes = some after) :
    after.Idempotent := by
  induction actions generalizing writes with
  | nil =>
    cases ran
    exact kept
  | cons act rest ih =>
    rw [foldlM_cons] at ran
    obtain ⟨next, stepped, later⟩ := Option.bind_eq_some_iff.mp ran
    exact ih (kept.step act stepped) later

/-- In every state of every interleaving, so also in the one in which a call answers. -/
theorem execWrite_idempotent (entry : Option ProcessEntry) (actions : List WriteAction)
    (reached : actions.foldlM step (start entry) = some writes) :
    HandedApart writes.handedIds ∧
    (∀ write ∈ writes.channel,
      (writes.calls[write.call]?).map WriteCall.params = some write.params) ∧
    ∀ call ∈ writes.calls, call.stage = .answered .accepted →
      ∃ earlier since, writes.handedIds = earlier ++ call.params.writeId :: since ∧
        call.params.writeId ∉ earlier ∧
        ((since.filter fun id => id ≠ call.params.writeId).dedup.length <
          retainedStdinWriteIdsPerProcess → call.params.writeId ∉ since) := by
  have kept := (idempotent_start entry).run actions reached
  refine ⟨kept.apart, kept.carried, ?_⟩
  intro call mem answered
  obtain ⟨earlier, since, split, first⟩ :=
    eq_append_cons_of_mem (kept.handed call mem answered)
  refine ⟨earlier, since, split, first, ?_⟩
  intro few again
  obtain ⟨between, later, rfl⟩ := append_of_mem again
  have many := kept.apart earlier _ between later split
  have within : (between.filter fun id => id ≠ call.params.writeId) ⊆
      ((between ++ call.params.writeId :: later).filter
        fun id => id ≠ call.params.writeId).dedup := by
    intro id present
    rw [mem_dedup, filter_append]
    exact mem_append_left _ present
  have fewer := ((nodup_dedup _).subperm (List.Subset.trans (dedup_subset _) within)).length_le
  omega

/-- Two calls with one id that both found room before either wrote. -/
def retriedWrite : List WriteAction :=
  [.execWrite ⟨['a'], [1]⟩, .execWrite ⟨['a'], [1]⟩, .lookUp 0, .lookUp 1, .check 0, .check 1,
    .reserve 0 false, .reserve 1 false, .send 1, .send 0]

theorem execWrite_idempotent_retried :
    ∃ writes, retriedWrite.foldlM step (start (some (.running true false))) = some writes ∧
      writes.channel = [⟨1, ⟨['a'], [1]⟩⟩] ∧ HandedApart writes.handedIds :=
  ⟨_, rfl, rfl, (execWrite_idempotent (some (.running true false)) retriedWrite rfl).1⟩

end StdinWrites

end CodexFormal.ExecServer
