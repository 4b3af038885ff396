import CodexFormal.NoiseRelay.OrderedCiphertext

/-!
# Invariants of the reorder buffer

Whatever is pushed, the buffer holds records of a bounded window ahead of the
next sequence number, its counter is the size of its records, and the numbers
that it releases only grow.
-/

set_option autoImplicit false

namespace CodexFormal.NoiseRelay.OrderedCiphertextFrames

open Foundation List FiniteMap Option

/-- The buffer while it is released: a record may be due. -/
structure IsReleasing (frames : OrderedCiphertextFrames) : Prop where
  window : ∀ seq payload, frames.pending.lookup seq = some payload →
    frames.nextSeq ≤ seq ∧ seq ≤ frames.nextSeq + maxReorderDistance
  bytes : frames.pendingBytes = FiniteMap.weight List.length frames.pending
  capacity : frames.pendingBytes ≤ maxPendingBytes
  number : frames.nextSeq ≤ u32Max

/-- Between two pushes no record is due. -/
structure IsBounded (frames : OrderedCiphertextFrames) : Prop extends IsReleasing frames where
  ahead : ∀ seq payload, frames.pending.lookup seq = some payload → frames.nextSeq < seq

/-- A buffered record is counted, so its size can be taken off the counter. -/
theorem IsReleasing.length_le {frames : OrderedCiphertextFrames} (releasing : IsReleasing frames)
    (seq : Nat) (data : Bytes) (found : frames.pending.lookup seq = some data) :
    data.length ≤ frames.pendingBytes := by
  have erased := weight_erase List.length frames.pending seq
  have counter := releasing.bytes
  simp only [found, map_some, getD_some] at erased
  omega

theorem empty_isBounded : IsBounded empty where
  window := by simp [empty]
  bytes := rfl
  capacity := Nat.zero_le _
  number := Nat.zero_le _
  ahead := by simp [empty]

variable (frames : OrderedCiphertextFrames)

theorem takePending_isBounded (releasing : IsReleasing frames)
    (data : Bytes) (found : frames.pending.lookup frames.nextSeq = some data) :
    IsBounded (frames.takePending data) := by
  have kept : ∀ seq other, (frames.takePending data).pending.lookup seq = some other →
      seq ≠ frames.nextSeq ∧ frames.pending.lookup seq = some other := by
    intro seq other lookup
    simp only [takePending, lookup_erase_eq_ite] at lookup
    split at lookup
    · contradiction
    next ne =>
      exact ⟨ne, lookup⟩
  have erased := weight_erase List.length frames.pending frames.nextSeq
  have counter := releasing.bytes
  have bound := releasing.capacity
  simp only [found, map_some, getD_some] at erased
  refine ⟨⟨fun seq other lookup => releasing.window seq other (kept seq other lookup).2, ?_, ?_,
    releasing.number⟩, fun seq other lookup => ?_⟩
  · simp only [takePending]
    omega
  · simp only [takePending]
    omega
  · obtain ⟨ne, inBuffer⟩ := kept seq other lookup
    have window := releasing.window seq other inBuffer
    simp only [takePending]
    omega

theorem advance_isReleasing {frames advanced : OrderedCiphertextFrames}
    (bounded : IsBounded frames) (next : frames.advance = some advanced) :
    IsReleasing advanced := by
  unfold advance at next
  split at next
  next room =>
    cases some.inj next
    refine ⟨fun seq data lookup => ?_, bounded.bytes, bounded.capacity, room⟩
    have window := bounded.window seq data lookup
    have ahead := bounded.ahead seq data lookup
    exact ⟨ahead, by simp only; omega⟩
  · contradiction

variable (frames : OrderedCiphertextFrames)

/-- The records released from a number on are the buffered ones with the numbers from there on. -/
def AreBuffered (released : List Bytes) : Prop :=
  ∀ index payload, released[index]? = some payload →
    frames.pending.lookup (frames.nextSeq + index) = some payload

theorem releasePending_effect (ready : List Bytes)
    (releasing : IsReleasing frames) (after : OrderedCiphertextFrames)
    (res : Except String (List Bytes)) (run : frames.releasePending ready = (after, res)) :
    IsBounded after ∧ frames.nextSeq ≤ after.nextSeq ∧
    (∀ freed, res = .ok freed → ∃ more, freed = ready ++ more ∧
    after.nextSeq = frames.nextSeq + more.length ∧ AreBuffered frames more) ∧
    (∀ error, res = .error error → error = "Noise relay sequence number exhausted") := by
  fun_induction releasePending frames ready with
  | case1 frames ready gone =>
    cases run
    refine ⟨⟨releasing, fun seq data lookup => ?_⟩, Nat.le_refl _, fun freed isOk => ?_,
      fun error isError => by cases isError⟩
    · refine Nat.lt_of_le_of_ne (releasing.window seq data lookup).1 fun same => ?_
      rw [← same, gone] at lookup
      cases lookup
    · cases isOk
      exact ⟨[], (append_nil _).symm, rfl, by simp [AreBuffered]⟩
  | case2 frames ready data found exhausted =>
    cases run
    exact ⟨takePending_isBounded frames releasing data found, Nat.le_refl _,
      (fun freed isOk => by cases isOk), fun error isError => by cases isError; rfl⟩
  | case3 frames ready data found advanced next ih =>
    have taken := takePending_isBounded frames releasing data found
    have isAdvanced := advance_eq_some next
    obtain ⟨bounded, grown, onOk, onError⟩ :=
      ih (advance_isReleasing taken next) run
    have nextSeq : advanced.nextSeq = frames.nextSeq + 1 := by rw [isAdvanced]; rfl
    refine ⟨bounded, by omega, fun freed isOk => ?_, onError⟩
    obtain ⟨more, split, last, buffered⟩ := onOk freed isOk
    refine ⟨data :: more, by rw [split, append_assoc]; rfl,
      by rw [last, length_cons]; omega, fun index other listed => ?_⟩
    cases index with
    | zero =>
      cases listed
      exact found
    | succ index =>
      have later := buffered index other listed
      have pending : advanced.pending = frames.pending.erase frames.nextSeq := by
        rw [isAdvanced]
        rfl
      rw [nextSeq, pending, lookup_erase_eq_ite, if_neg (by omega)] at later
      rw [← later, Nat.add_assoc, Nat.add_comm 1]

/-- The records that a push releases have the numbers from the next one on: the pushed record and
then buffered ones. -/
def AreNext (seq : Nat) (payload : Bytes) (released : List Bytes) : Prop :=
  ∀ index record, released[index]? = some record →
    (index = 0 ∧ seq = frames.nextSeq ∧ record = payload) ∨
      (0 < index ∧ frames.pending.lookup (frames.nextSeq + index) = some record)

structure PushEffect (frames : OrderedCiphertextFrames) (seq : Nat) (payload : Bytes)
    (after : OrderedCiphertextFrames) (result : Except String (List Bytes)) : Prop where
  bounded : IsBounded after
  grows : frames.nextSeq ≤ after.nextSeq
  released : ∀ released, result = .ok released →
    after.nextSeq = frames.nextSeq + released.length ∧ AreNext frames seq payload released
  unchanged : ∀ error, result = .error error →
    error = "Noise relay ciphertext exceeds reorder window" ∨
      error = "Noise relay pending ciphertext buffer is full" → after = frames

variable {frames} in
theorem push_effect (bounded : IsBounded frames) {seq : Nat}
    {data : Bytes} {after : OrderedCiphertextFrames} {result : Except String (List Bytes)}
    (run : frames.push seq data = (after, result)) : PushEffect frames seq data after result := by
  have nothing : ∀ after : OrderedCiphertextFrames, after.nextSeq = frames.nextSeq →
      ∀ released, (.ok [] : Except String (List Bytes)) = .ok released →
        after.nextSeq = frames.nextSeq + released.length ∧ AreNext frames seq data released := by
    intro after same released isOk
    cases isOk
    exact ⟨same, by simp [AreNext]⟩
  unfold push at run
  split at run
  · cases run
    exact ⟨bounded, Nat.le_refl _, nothing frames rfl, fun _ _ _ => rfl⟩
  next unseen =>
    rw [not_or] at unseen
    split at run
    next isAhead =>
      split at run
      · cases run
        exact ⟨bounded, Nat.le_refl _, (fun _ isOk => by cases isOk), fun _ _ _ => rfl⟩
      next inWindow =>
        split at run
        · cases run
          exact ⟨bounded, Nat.le_refl _, (fun _ isOk => by cases isOk), fun _ _ _ => rfl⟩
        next fits =>
          cases run
          have gone : frames.pending.lookup seq = none := by
            simpa using unseen.2
          have added := weight_insert List.length frames.pending seq data
          have counter := bounded.bytes
          simp only [gone, map_none, getD_none] at added
          have held : ∀ other record, (frames.pending.insert seq data).lookup other =
              some record → frames.nextSeq < other ∧
                other ≤ frames.nextSeq + maxReorderDistance := by
            intro other record lookup
            rw [lookup_insert_eq_ite] at lookup
            split at lookup
            · omega
            · exact ⟨bounded.ahead other record lookup, (bounded.window other record lookup).2⟩
          refine ⟨⟨⟨fun other record lookup => ?_, ?_, ?_, bounded.number⟩,
            fun other record lookup => (held other record lookup).1⟩, Nat.le_refl _,
            nothing _ rfl, fun _ isError => by cases isError⟩
          · exact ⟨Nat.le_of_lt (held other record lookup).1, (held other record lookup).2⟩
          · simp only
            omega
          · simp only
            omega
    next notAhead =>
      have isNext : seq = frames.nextSeq := by omega
      split at run
      · cases run
        exact ⟨bounded, Nat.le_refl _, (fun _ isOk => by cases isOk), fun _ _ _ => rfl⟩
      next advanced next =>
        obtain ⟨boundedAfter, grown, onOk, onError⟩ := releasePending_effect advanced [data]
          (advance_isReleasing bounded next) after result run
        have isAdvanced := advance_eq_some next
        have nextSeq : advanced.nextSeq = frames.nextSeq + 1 := by rw [isAdvanced]
        have samePending : advanced.pending = frames.pending := by rw [isAdvanced]
        refine ⟨boundedAfter, by omega, fun released isOk => ?_, fun error isError known => ?_⟩
        · obtain ⟨more, split, last, buffered⟩ := onOk released isOk
          refine ⟨by rw [last, split, length_append, length_singleton]; omega,
            fun index record listed => ?_⟩
          rw [split] at listed
          cases index with
          | zero =>
            cases listed
            exact .inl ⟨rfl, isNext, rfl⟩
          | succ index =>
            have later := buffered index record listed
            rw [nextSeq, samePending] at later
            refine .inr ⟨Nat.succ_pos _, ?_⟩
            rw [← later, Nat.add_assoc, Nat.add_comm 1]
        · rw [onError error isError] at known
          exact absurd known (by decide)

def releasedNumbers : Except String (List Bytes) → List Nat
  | .ok released => List.range' frames.nextSeq released.length
  | .error _ => []

/-- Pushes one after the other, also after errors, with all numbers that they release. -/
def pushAll : OrderedCiphertextFrames → List (Nat × Bytes) → OrderedCiphertextFrames × List Nat
  | frames, [] => (frames, [])
  | frames, (seq, payload) :: rest =>
    let later := pushAll (frames.push seq payload).1 rest
    (later.1, releasedNumbers frames (frames.push seq payload).2 ++ later.2)

/-- The numbers of a run grow strictly from the next number of its start to that of its end. -/
theorem pushAll_invariant (pushes : List (Nat × Bytes)) (frames : OrderedCiphertextFrames)
    (bounded : IsBounded frames) :
    IsBounded (frames.pushAll pushes).1 ∧ frames.nextSeq ≤ (frames.pushAll pushes).1.nextSeq ∧
    (frames.pushAll pushes).2.Pairwise (· < ·) ∧ ∀ number ∈ (frames.pushAll pushes).2,
    frames.nextSeq ≤ number ∧ number < (frames.pushAll pushes).1.nextSeq := by
  induction pushes generalizing frames with
  | nil => exact ⟨bounded, Nat.le_refl _, List.Pairwise.nil, by simp [pushAll]⟩
  | cons push rest ih =>
    obtain ⟨seq, data⟩ := push
    have effect : PushEffect frames seq data (frames.push seq data).1
      (frames.push seq data).2 := push_effect bounded rfl
    obtain ⟨boundedLast, grown, increasing, between⟩ := ih _ effect.bounded
    have released : ∀ number ∈ releasedNumbers frames (frames.push seq data).2,
        frames.nextSeq ≤ number ∧ number < (frames.push seq data).1.nextSeq := by
      intro number mem
      cases isOk : (frames.push seq data).2 with
      | error error => simp [isOk, releasedNumbers] at mem
      | ok ready =>
        rw [isOk, releasedNumbers, mem_range'_1] at mem
        rw [(effect.released ready isOk).1]
        exact mem
    have ordered : (releasedNumbers frames (frames.push seq data).2).Pairwise (· < ·) := by
      cases (frames.push seq data).2 with
      | error error => exact List.Pairwise.nil
      | ok ready => exact pairwise_lt_range'
    refine ⟨boundedLast, Nat.le_trans effect.grows grown, ?_, fun number mem => ?_⟩
    · refine pairwise_append.mpr ⟨ordered, increasing, fun number here later isLater => ?_⟩
      exact Nat.lt_of_lt_of_le (released number here).2 (between later isLater).1
    · rcases mem_append.mp mem with here | later
      · exact ⟨(released number here).1, Nat.lt_of_lt_of_le (released number here).2 grown⟩
      · exact ⟨Nat.le_trans effect.grows (between number later).1, (between number later).2⟩

/-- After any pushes the buffer is bounded and its counter exact, no number has been released
twice, and the next push keeps all this: the sequence number does not decrease or wrap, an error
of the window or of the capacity changes nothing, and what is released has the next numbers. -/
theorem reorderBuffer_invariants (pushes : List (Nat × Bytes)) :
    IsBounded (empty.pushAll pushes).1 ∧ (empty.pushAll pushes).2.Nodup ∧
      (∀ number ∈ (empty.pushAll pushes).2, number < (empty.pushAll pushes).1.nextSeq) ∧
      (∀ seq payload, (empty.pushAll pushes).1.pending.lookup seq = some payload →
        payload.length ≤ (empty.pushAll pushes).1.pendingBytes) ∧
      ∀ seq payload, PushEffect (empty.pushAll pushes).1 seq payload
        ((empty.pushAll pushes).1.push seq payload).1
        ((empty.pushAll pushes).1.push seq payload).2 := by
  obtain ⟨bounded, _, increasing, between⟩ := pushAll_invariant pushes empty empty_isBounded
  exact ⟨bounded, increasing.imp Nat.ne_of_lt, fun number mem => (between number mem).2,
    bounded.toIsReleasing.length_le, fun seq payload => push_effect bounded rfl⟩

end CodexFormal.NoiseRelay.OrderedCiphertextFrames
