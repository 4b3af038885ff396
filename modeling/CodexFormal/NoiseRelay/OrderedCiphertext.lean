import CodexFormal.Foundation.FiniteMap

/-!
# Reordering of relay records

Records may arrive in any order and more than once.  `push` keeps the first
copy of a record that is ahead of its turn and releases the records that became
contiguous.  Sequence numbers are `u32`, so advancing past the largest one is
an error, and the buffer left by an error is part of the result.
-/

set_option autoImplicit false

namespace CodexFormal.NoiseRelay

open Foundation FiniteMap Option List

abbrev Bytes := List UInt8

def u32Max : Nat := 2 ^ 32 - 1

def maxReorderDistance : Nat := 64
def maxPendingBytes : Nat := 1024 * 1024

structure OrderedCiphertextFrames where
  nextSeq : Nat
  pending : FiniteMap Nat Bytes
  pendingBytes : Nat

namespace OrderedCiphertextFrames

def empty : OrderedCiphertextFrames := ⟨0, ∅, 0⟩

variable (frames : OrderedCiphertextFrames)

/-- The next sequence number, unless there is none. -/
def advance : Option OrderedCiphertextFrames :=
  if frames.nextSeq < u32Max then some { frames with nextSeq := frames.nextSeq + 1 } else none

/-- Takes the next record out of the buffer. -/
def takePending (payload : Bytes) : OrderedCiphertextFrames :=
  { frames with
    pending := frames.pending.erase frames.nextSeq
    pendingBytes := frames.pendingBytes - payload.length }

variable (advanced : OrderedCiphertextFrames) (payload : Bytes)

theorem takePending_advance_size (found : frames.pending.lookup frames.nextSeq = some payload)
    (next : (frames.takePending payload).advance = some advanced) :
    size advanced.pending < size frames.pending := by
  have same : advanced.pending = frames.pending.erase frames.nextSeq := by
    unfold advance at next
    split at next
    · cases some.inj next
      rfl
    · contradiction
  rw [same]
  exact size_erase_lt found

def releasePending (frames : OrderedCiphertextFrames) (ready : List Bytes) :
    OrderedCiphertextFrames × Except String (List Bytes) :=
  match _found : frames.pending.lookup frames.nextSeq with
  | none => (frames, .ok ready)
  | some payload =>
    match _next : (frames.takePending payload).advance with
    | none => (frames.takePending payload, .error "Noise relay sequence number exhausted")
    | some advanced => releasePending advanced (ready ++ [payload])
termination_by FiniteMap.size frames.pending
decreasing_by exact takePending_advance_size frames advanced payload _found _next

theorem releasePending_of_none (frames : OrderedCiphertextFrames) (ready : List Bytes)
    (gone : frames.pending.lookup frames.nextSeq = none) :
    frames.releasePending ready = (frames, .ok ready) := by
  rw [releasePending]
  split
  · rfl
  next payload found =>
    rw [found] at gone
    contradiction

theorem releasePending_of_some (ready : List Bytes) (payload : Bytes)
    (found : frames.pending.lookup frames.nextSeq = some payload)
    (next : (frames.takePending payload).advance = some advanced) :
    frames.releasePending ready = advanced.releasePending (ready ++ [payload]) := by
  rw [releasePending]
  split
  next gone =>
    rw [found] at gone
    contradiction
  next other otherFound =>
    cases some.inj (found.symm.trans otherFound)
    split
    next exhausted =>
      rw [next] at exhausted
      contradiction
    next otherNext isNext =>
      cases some.inj (next.symm.trans isNext)
      rfl

def push (seq : Nat) (payload : Bytes) : OrderedCiphertextFrames × Except String (List Bytes) :=
  if seq < frames.nextSeq ∨ (frames.pending.lookup seq).isSome then (frames, .ok [])
  else if seq > frames.nextSeq then
    if seq - frames.nextSeq > maxReorderDistance then
      (frames, .error "Noise relay ciphertext exceeds reorder window")
    else if frames.pendingBytes + payload.length > maxPendingBytes then
      (frames, .error "Noise relay pending ciphertext buffer is full")
    else
      ({ frames with
          pending := frames.pending.insert seq payload
          pendingBytes := frames.pendingBytes + payload.length }, .ok [])
  else
    match frames.advance with
    | none => (frames, .error "Noise relay sequence number exhausted")
    | some advanced => advanced.releasePending [payload]

/-- Every buffered record is one of the numbered records, and the byte counter
is the size of the buffer. -/
structure Buffered (records : List Bytes) (frames : OrderedCiphertextFrames) : Prop where
  ofRecords : ∀ seq payload, frames.pending.lookup seq = some payload →
    records[seq]? = some payload
  bytes : frames.pendingBytes = FiniteMap.weight List.length frames.pending

variable (records : List Bytes)

theorem empty_buffered : Buffered records empty :=
  ⟨by simp [empty], rfl⟩

variable {frames advanced} in
theorem advance_eq_some (next : frames.advance = some advanced) :
    advanced = { frames with nextSeq := frames.nextSeq + 1 } := by
  unfold advance at next
  split at next
  · exact (some.inj next).symm
  · contradiction

theorem takePending_buffered (frames : OrderedCiphertextFrames)
    (buffered : Buffered records frames) (payload : Bytes)
    (found : frames.pending.lookup frames.nextSeq = some payload) :
    Buffered records (frames.takePending payload) where
  ofRecords := by
    intro seq other lookup
    simp only [takePending, lookup_erase_eq_ite] at lookup
    split at lookup
    · contradiction
    · exact buffered.ofRecords seq other lookup
  bytes := by
    have erased := weight_erase List.length frames.pending frames.nextSeq
    have counter := buffered.bytes
    simp only [found, map_some, getD_some] at erased
    simp only [takePending]
    omega

theorem take_succ_of_getElem? (count : Nat) (record : Bytes)
    (at_count : records[count]? = some record) :
    records.take (count + 1) = records.take count ++ [record] := by
  rw [take_add_one, at_count]
  rfl

/-- The loop releases the records from the current sequence number on, in
order. -/
theorem releasePending_spec (frames : OrderedCiphertextFrames)
    (ready : List Bytes) (buffered : Buffered records frames) (earlier : List Bytes)
    (gapless : earlier ++ ready = records.take frames.nextSeq)
    (bound : frames.nextSeq ≤ records.length) (after : OrderedCiphertextFrames) (freed : List Bytes)
    (run : frames.releasePending ready = (after, .ok freed)) :
    Buffered records after ∧ earlier ++ freed = records.take after.nextSeq ∧
    after.nextSeq ≤ records.length ∧ frames.nextSeq ≤ after.nextSeq ∧
    after.pending.lookup after.nextSeq = none := by
  fun_induction releasePending frames ready with
  | case1 frames ready gone =>
    simp only [Prod.mk.injEq, Except.ok.injEq] at run
    obtain ⟨rfl, rfl⟩ := run
    exact ⟨buffered, gapless, bound, Nat.le_refl _, gone⟩
  | case2 frames ready payload found exhausted => simp at run
  | case3 frames ready payload found advanced next ih =>
    have record : records[frames.nextSeq]? = some payload :=
      buffered.ofRecords frames.nextSeq payload found
    have taken := takePending_buffered records frames buffered payload found
    have inRange : frames.nextSeq < records.length :=
      (List.getElem?_eq_some_iff.mp record).1
    have isAdvanced := advance_eq_some next
    subst isAdvanced
    have extended : earlier ++ (ready ++ [payload]) = records.take (frames.nextSeq + 1) := by
      rw [← append_assoc, gapless, take_succ_of_getElem? records _ payload record]
    obtain ⟨bufferedAfter, releasedAfter, boundAfter, grown, stopped⟩ :=
      ih ⟨taken.ofRecords, taken.bytes⟩ extended inRange run
    exact ⟨bufferedAfter, releasedAfter, boundAfter, Nat.le_of_succ_le grown, stopped⟩

/-- A successful push of one of the numbered records releases exactly the
records between the old and the new sequence number. -/
theorem push_spec (frames : OrderedCiphertextFrames)
    (buffered : Buffered records frames) (bound : frames.nextSeq ≤ records.length)
    (seq : Nat) (payload : Bytes) (record : records[seq]? = some payload)
    (after : OrderedCiphertextFrames) (freed : List Bytes)
    (run : frames.push seq payload = (after, .ok freed)) : Buffered records after ∧
    records.take frames.nextSeq ++ freed = records.take after.nextSeq ∧
    after.nextSeq ≤ records.length ∧ frames.nextSeq ≤ after.nextSeq := by
  unfold push at run
  split at run
  · simp only [Prod.mk.injEq, Except.ok.injEq] at run
    obtain ⟨rfl, rfl⟩ := run
    exact ⟨buffered, append_nil _, bound, Nat.le_refl _⟩
  next unseen =>
    split at run
    · split at run
      · simp at run
      · split at run
        · simp at run
        · simp only [Prod.mk.injEq, Except.ok.injEq] at run
          obtain ⟨rfl, rfl⟩ := run
          refine ⟨⟨?_, ?_⟩, append_nil _, bound, Nat.le_refl _⟩
          · intro other held lookup
            simp only [lookup_insert_eq_ite] at lookup
            split at lookup
            next same =>
              rw [same, record, ← lookup]
            · exact buffered.ofRecords other held lookup
          · have gone : frames.pending.lookup seq = none := by
              cases found : frames.pending.lookup seq with
              | none => rfl
              | some held => exact absurd (.inr (by simp [found])) unseen
            have added := weight_insert List.length frames.pending seq payload
            have counter := buffered.bytes
            simp only [gone, map_none, getD_none] at added
            simp only
            omega
    next notAhead =>
      have isNext : seq = frames.nextSeq := by omega
      subst isNext
      split at run
      · simp at run
      next advanced next =>
        have isAdvanced := advance_eq_some next
        subst isAdvanced
        obtain ⟨bufferedAfter, releasedAfter, boundAfter, grown, _⟩ :=
          releasePending_spec records { frames with nextSeq := frames.nextSeq + 1 } [payload]
            ⟨buffered.ofRecords, buffered.bytes⟩
            (records.take frames.nextSeq)
            (take_succ_of_getElem? records _ payload record).symm
            (List.getElem?_eq_some_iff.mp record).1 after freed run
        exact ⟨bufferedAfter, releasedAfter, boundAfter, Nat.le_of_succ_le grown⟩

end OrderedCiphertextFrames

end CodexFormal.NoiseRelay
