import CodexFormal.RemoteControl.ServerSegment

/-!
# The buffer of unacknowledged server envelopes

Envelopes stay buffered under their client and stream until the client
acknowledges a cursor at or above theirs.  The `used` counter is a `usize` that
an acknowledgement decrements once for each envelope it removes; `ack` returns
nothing when that decrement would pass below zero.
-/

set_option autoImplicit false

namespace CodexFormal.RemoteControl

open Foundation List FiniteMap Option

def usizeMax : Nat := 2 ^ 64 - 1

structure BoundedOutboundBuffer where
  bufferByStream : FiniteMap ClientKey (List ServerEnvelope)
  used : Nat

def ackedCursor (ackedSeqId : Nat) (ackedSegmentId : Option Nat) : Nat × Nat :=
  (ackedSeqId, ackedSegmentId.getD usizeMax)

/-- `VecDeque::retain` with the closure of `ack`: the envelopes that stay, and
the counter after the decrements. -/
def retainUnacked (acked : Nat × Nat) :
    List ServerEnvelope → Nat → Option (List ServerEnvelope × Nat)
  | [], used => some ([], used)
  | envelope :: rest, used =>
    if CursorLe envelope.cursor acked then
      match used with
      | 0 => none
      | remaining + 1 => retainUnacked acked rest remaining
    else
      (retainUnacked acked rest used).map fun kept => (envelope :: kept.1, kept.2)

namespace BoundedOutboundBuffer

def new : BoundedOutboundBuffer := ⟨∅, 0⟩

def buffered (buffer : BoundedOutboundBuffer) (key : ClientKey) : List ServerEnvelope :=
  (buffer.bufferByStream.lookup key).getD []

def insert (buffer : BoundedOutboundBuffer) (envelope : ServerEnvelope) :
    BoundedOutboundBuffer where
  bufferByStream :=
    buffer.bufferByStream.insert envelope.key (buffer.buffered envelope.key ++ [envelope])
  used := buffer.used + 1

variable (queues : FiniteMap ClientKey (List ServerEnvelope))

/-- Puts back what `retain` left of a queue; an empty queue is removed. -/
def storeQueue (key : ClientKey)
    (queue : List ServerEnvelope) : FiniteMap ClientKey (List ServerEnvelope) :=
  if queue.isEmpty then queues.erase key else queues.insert key queue

section

variable (buffer : BoundedOutboundBuffer)

def ack (key : ClientKey) (ackedSeqId : Nat)
    (ackedSegmentId : Option Nat) : Option BoundedOutboundBuffer :=
  match buffer.bufferByStream.lookup key with
  | none => some buffer
  | some queue =>
    (retainUnacked (ackedCursor ackedSeqId ackedSegmentId) queue buffer.used).map
      fun kept =>
        ⟨storeQueue buffer.bufferByStream key kept.1, kept.2⟩

def serverEnvelopes : List ServerEnvelope :=
  (FiniteMap.values buffer.bufferByStream).flatten

/-- The number of buffered envelopes. -/
def total : Nat :=
  FiniteMap.weight List.length buffer.bufferByStream

def Counted : Prop := buffer.used = buffer.total

end

theorem new_counted : new.Counted := rfl

variable (buffer : BoundedOutboundBuffer)

theorem total_eq_length_serverEnvelopes : buffer.total = buffer.serverEnvelopes.length := by
  simp [total, serverEnvelopes, weight, values, Function.comp_def]

variable (key : ClientKey)

theorem length_buffered : (buffer.buffered key).length =
    ((buffer.bufferByStream.lookup key).map List.length).getD 0 := by
  unfold buffered
  cases buffer.bufferByStream.lookup key <;> rfl

theorem insert_buffered (envelope : ServerEnvelope) (key : ClientKey) :
    (buffer.insert envelope).buffered key =
    buffer.buffered key ++ (if envelope.key = key then [envelope] else []) := by
  unfold insert
  simp only [buffered, lookup_insert_eq_ite]
  by_cases same : envelope.key = key
  · subst same
    simp
  · simp [same, Ne.symm same]

theorem insert_counted (envelope : ServerEnvelope)
    (counted : buffer.Counted) : (buffer.insert envelope).Counted := by
  have weight := weight_insert List.length buffer.bufferByStream envelope.key
    (buffer.buffered envelope.key ++ [envelope])
  rw [← length_buffered, length_append, length_singleton] at weight
  unfold Counted total at counted ⊢
  unfold insert
  simp only
  omega

theorem insertAll_buffered (envs : List ServerEnvelope)
    (buffer : BoundedOutboundBuffer) (key : ClientKey) : (envs.foldl insert buffer).buffered key =
    buffer.buffered key ++ envs.filter fun envelope => decide (envelope.key = key) := by
  induction envs generalizing buffer with
  | nil => simp
  | cons envelope rest ih =>
    rw [foldl_cons, ih, insert_buffered]
    by_cases mine : envelope.key = key
    · simp [mine]
    · simp [mine]

theorem insertAll_counted (envs : List ServerEnvelope)
    (buffer : BoundedOutboundBuffer) (counted : buffer.Counted) :
    (envs.foldl insert buffer).Counted := by
  induction envs generalizing buffer with
  | nil => exact counted
  | cons envelope rest ih =>
    exact ih (buffer.insert envelope) (insert_counted buffer envelope counted)

theorem retainUnacked_eq (acked : Nat × Nat) (queue : List ServerEnvelope) (used : Nat)
    (enough : queue.length ≤ used) : ∃ remaining, retainUnacked acked queue used =
    some (queue.filter fun envelope => decide (¬ CursorLe envelope.cursor acked), remaining) ∧
    used - queue.length + (queue.filter fun envelope =>
    decide (¬ CursorLe envelope.cursor acked)).length = remaining := by
  induction queue generalizing used with
  | nil => exact ⟨used, rfl, by simp⟩
  | cons envelope rest ih =>
    simp only [length_cons] at enough ⊢
    by_cases covered : CursorLe envelope.cursor acked
    · obtain ⟨fewer, rfl⟩ : ∃ fewer, used = fewer + 1 := ⟨used - 1, by omega⟩
      obtain ⟨remaining, run, count⟩ := ih fewer (by omega)
      refine ⟨remaining, ?_, ?_⟩
      · simp [retainUnacked, covered, run]
      · simp only [covered, not_true_eq_false, decide_false, Bool.false_eq_true,
          not_false_eq_true, filter_cons_of_neg]
        omega
    · obtain ⟨remaining, run, count⟩ := ih used (by omega)
      refine ⟨remaining, ?_, ?_⟩
      · simp [retainUnacked, covered, run]
      · simp only [covered, not_false_eq_true, decide_true, filter_cons_of_pos, length_cons]
        omega

theorem storeQueue_lookup (key other : ClientKey) (queue : List ServerEnvelope) :
    ((storeQueue queues key queue).lookup other).getD [] =
    if other = key then queue else (queues.lookup other).getD [] := by
  unfold storeQueue
  by_cases empty : queue.isEmpty
  · rw [if_pos empty, lookup_erase_eq_ite]
    split <;> simp_all
  · rw [if_neg empty, lookup_insert_eq_ite]
    split <;> rfl

theorem storeQueue_weight (key : ClientKey) (queue : List ServerEnvelope) :
    weight List.length (storeQueue queues key queue) +
    ((queues.lookup key).map List.length).getD 0 = weight List.length queues + queue.length := by
  unfold storeQueue
  by_cases empty : queue.isEmpty
  · rw [if_pos empty, weight_erase, isEmpty_iff.mp empty]
    rfl
  · rw [if_neg empty, weight_insert]

theorem length_buffered_le_total : (buffer.buffered key).length ≤ buffer.total := by
  have weight := weight_erase List.length buffer.bufferByStream key
  rw [length_buffered, total]
  omega

/-- The acknowledgement of a counted buffer succeeds, removes exactly the
covered envelopes of its stream, and leaves a counted buffer. -/
theorem ack_spec (ackedSeqId : Nat) (ackedId : Option Nat) (counted : buffer.Counted) :
    ∃ after, buffer.ack key ackedSeqId ackedId = some after ∧ after.Counted ∧
    ∀ other, after.buffered other = (buffer.buffered other).filter fun envelope =>
    decide (¬ (other = key ∧ CursorLe envelope.cursor (ackedCursor ackedSeqId ackedId))) := by
  have bound := length_buffered_le_total buffer key
  unfold ack
  cases found : buffer.bufferByStream.lookup key with
  | none =>
    refine ⟨buffer, rfl, counted, ?_⟩
    intro other
    by_cases same : other = key
    · subst same
      simp [buffered, found]
    · simp [same]
  | some queue =>
    have isQueue : buffer.buffered key = queue := by simp [buffered, found]
    rw [isQueue, ← counted] at bound
    obtain ⟨left, retained, count⟩ := retainUnacked_eq
      (ackedCursor ackedSeqId ackedId) queue buffer.used bound
    simp only [retained, map_some]
    refine ⟨_, rfl, ?_, ?_⟩
    · have held := storeQueue_weight buffer.bufferByStream key (queue.filter fun envelope =>
        decide (¬ CursorLe envelope.cursor (ackedCursor ackedSeqId ackedId)))
      simp only [found, map_some, getD_some] at held
      unfold Counted total at counted ⊢
      simp only
      omega
    · intro other
      simp only [buffered, storeQueue_lookup]
      by_cases same : other = key
      · subst same
        simp [found]
      · simp [same]

end BoundedOutboundBuffer

end CodexFormal.RemoteControl
