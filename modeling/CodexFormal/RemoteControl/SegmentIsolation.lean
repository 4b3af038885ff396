import CodexFormal.RemoteControl.Segment

/-!
# Clients do not influence each other's reassembly

All clients share one map of partial assemblies.  What an envelope does to the
assembly of its own client depends on that assembly only, and it leaves the
assemblies of the other clients alone unless starting an assembly has to evict
one.  From these two facts a client's observations in a shared run are those of
a run with its own envelopes alone.
-/

set_option autoImplicit false

namespace CodexFormal.RemoteControl

open Foundation FiniteMap List

namespace ClientSegmentReassembler

def preparedAssembly (now : Nat) (streamId : StreamId) (metadata : ClientSegmentMetadata) :
    Option ClientSegmentAssembly → ClientSegmentAssembly
  | some assembly =>
    if assembly.streamId ≠ streamId then ⟨streamId, metadata, [], 0, now⟩
    else assembly
  | none => ⟨streamId, metadata, [], 0, now⟩

variable (reassembler : ClientSegmentReassembler) (now : Nat) (clientId : ClientId)
  (streamId : StreamId) (metadata : ClientSegmentMetadata)

theorem prepareAssembly_lookup_self :
    (reassembler.prepareAssembly now clientId streamId metadata).assemblies.lookup clientId =
    some (preparedAssembly now streamId metadata (reassembler.assemblies.lookup clientId)) := by
  simp only [prepareAssembly]
  cases found : reassembler.assemblies.lookup clientId with
  | none => simp [startAssembly, preparedAssembly]
  | some assembly =>
    by_cases other : assembly.streamId ≠ streamId
    · simp [startAssembly, preparedAssembly, other]
    · simp [preparedAssembly, other, found]

theorem removeAssembly_lookup (clientId other : ClientId) (streamId : StreamId) :
    (reassembler.removeAssembly clientId streamId).assemblies.lookup other =
      if other = clientId ∧ (reassembler.assemblies.lookup clientId).any
          (fun assembly => decide (assembly.streamId = streamId)) = true then none
      else reassembler.assemblies.lookup other := by
  simp only [removeAssembly]
  split
  next matching =>
    simp [lookup_erase_eq_ite, matching]
  next mismatching =>
    simp [mismatching]

/-- Two reassemblers that agree on the envelope's client observe the same and
agree on that client afterwards. -/
theorem observeChunk_congr {left right : ClientSegmentReassembler}
    (codec : SegmentCodec) (now : Nat) {envelope : ClientEnvelope}
    (streamId : StreamId) (metadata : ClientSegmentMetadata) (segmentId : Nat) (chunk : String)
    (agree : left.assemblies.lookup envelope.clientId = right.assemblies.lookup envelope.clientId) :
    (left.observeChunk codec now envelope streamId metadata segmentId chunk).2 =
    (right.observeChunk codec now envelope streamId metadata segmentId chunk).2 ∧
    (left.observeChunk codec now envelope streamId metadata segmentId
    chunk).1.assemblies.lookup envelope.clientId =
    (right.observeChunk codec now envelope streamId metadata segmentId
    chunk).1.assemblies.lookup envelope.clientId := by
  have sameIgnore : left.shouldIgnoreChunk envelope.clientId streamId metadata.seqId segmentId =
        right.shouldIgnoreChunk envelope.clientId streamId metadata.seqId segmentId := by
    simp [shouldIgnoreChunk, agree]
  simp only [observeChunk, sameIgnore]
  split
  · exact ⟨rfl, agree⟩
  · split
    · simp [removeAssembly_lookup, agree]
    · simp only [prepareAssembly_lookup_self, agree]
      split <;> simp [removeAssembly_lookup]

theorem observe_congr {left right : ClientSegmentReassembler}
    (codec : SegmentCodec) (now : Nat) {envelope : ClientEnvelope}
    (agree : left.assemblies.lookup envelope.clientId = right.assemblies.lookup envelope.clientId) :
    (left.observe codec now envelope).2 = (right.observe codec now envelope).2 ∧
    (left.observe codec now envelope).1.assemblies.lookup envelope.clientId =
    (right.observe codec now envelope).1.assemblies.lookup envelope.clientId := by
  simp only [observe]
  split
  · split
    · exact observeChunk_congr codec now _ _ _ _ agree
    · exact ⟨rfl, agree⟩
  · exact ⟨rfl, agree⟩

/-- The envelope makes the reassembler start an assembly for a client that has
none; this is where an eviction can happen. -/
def startsAssembly (reassembler : ClientSegmentReassembler) (envelope : ClientEnvelope) : Bool :=
  match envelope.event, envelope.seqId, envelope.streamId with
  | .clientMessageChunk segmentId segmentCount messageSizeBytes chunk, some _, some _ =>
    chunkIsValid segmentId segmentCount messageSizeBytes chunk &&
      (reassembler.assemblies.lookup envelope.clientId).isNone
  | _, _, _ => false

def otherAssemblies (reassembler : ClientSegmentReassembler) (clientId : ClientId) : Nat :=
  (reassembler.assemblies.keys.filter fun other => decide (other ≠ clientId)).length

theorem otherAssemblies_eq_size (gone : reassembler.assemblies.lookup clientId = none) :
    reassembler.otherAssemblies clientId = size reassembler.assemblies := by
  have notKey : clientId ∉ reassembler.assemblies.keys :=
    fun mem => AList.lookup_eq_none.mp gone (AList.mem_keys.mpr mem)
  have allOther : reassembler.assemblies.keys.filter
      (fun other => decide (other ≠ clientId)) = reassembler.assemblies.keys := by
    apply filter_eq_self.mpr
    intro other mem
    have ne : other ≠ clientId := fun same => notKey (same ▸ mem)
    simpa using ne
  rw [otherAssemblies, allOther, size, AList.keys, List.keys, length_map]

theorem evictAssembliesIfFull_of_room (room : size reassembler.assemblies <
    remoteControlSegmentAssemblyMaxCount) : reassembler.evictAssembliesIfFull = reassembler := by
  obtain ⟨assemblies⟩ := reassembler
  simp only [evictAssembliesIfFull]
  cases rounds : size assemblies with
  | zero => rfl
  | succ count => simp [evictLoop, room]

theorem prepareAssembly_lookup_other (clientId other : ClientId) (streamId : StreamId)
    (metadata : ClientSegmentMetadata) (ne : other ≠ clientId)
    (room : reassembler.assemblies.lookup clientId = none →
    size reassembler.assemblies < remoteControlSegmentAssemblyMaxCount) :
    (reassembler.prepareAssembly now clientId streamId metadata).assemblies.lookup
    other = reassembler.assemblies.lookup other := by
  simp only [prepareAssembly]
  cases found : reassembler.assemblies.lookup clientId with
  | none =>
    simp only [evictAssembliesIfFull_of_room reassembler (room found), startAssembly]
    exact AList.lookup_insert_ne ne
  | some assembly =>
    simp only
    split
    · exact AList.lookup_insert_ne ne
    · rfl

variable (codec : SegmentCodec)

theorem observeChunk_lookup_other (now : Nat) (envelope : ClientEnvelope)
    (streamId : StreamId) (metadata : ClientSegmentMetadata) (segmentId : Nat)
    (chunk : String) (other : ClientId) (ne : other ≠ envelope.clientId)
    (room : chunkIsValid segmentId metadata.segmentCount metadata.messageSizeBytes chunk = true →
    reassembler.assemblies.lookup envelope.clientId = none → size reassembler.assemblies <
    remoteControlSegmentAssemblyMaxCount) :
    (reassembler.observeChunk codec now envelope streamId metadata segmentId
    chunk).1.assemblies.lookup other = reassembler.assemblies.lookup other := by
  simp only [observeChunk]
  split
  · rfl
  · split
    · simp [removeAssembly_lookup, ne]
    next invalid =>
      have valid : chunkIsValid segmentId metadata.segmentCount
        metadata.messageSizeBytes chunk = true := by simpa using invalid
      have ready := reassembler.prepareAssembly_lookup_other now envelope.clientId
        other streamId metadata ne (room valid)
      simp only [prepareAssembly_lookup_self]
      split <;>
        simp [removeAssembly_lookup, ne, ready]

theorem observe_lookup_other (now : Nat) (envelope : ClientEnvelope)
    (other : ClientId) (ne : other ≠ envelope.clientId)
    (room : reassembler.startsAssembly envelope = true →
    reassembler.otherAssemblies envelope.clientId ≤ remoteControlSegmentAssemblyMaxCount - 1) :
    (reassembler.observe codec now envelope).1.assemblies.lookup other =
    reassembler.assemblies.lookup other := by
  simp only [observe]
  split
  next segmentId segCount msgSize chunk event =>
    split
    next seqId streamId hasSeqId hasStreamId =>
      apply observeChunk_lookup_other reassembler codec now envelope _ _ _ _ other ne
      intro valid gone
      have starts : reassembler.startsAssembly envelope = true := by
        simp [startsAssembly, event, hasSeqId, hasStreamId, valid, gone]
      have bound := room starts
      rw [otherAssemblies_eq_size reassembler _ gone] at bound
      exact Nat.lt_of_le_of_lt bound (by decide)
    · rfl
  · rfl

def observeAll (codec : SegmentCodec) : ClientSegmentReassembler → List (Nat × ClientEnvelope) →
      List ClientSegmentObservation
  | _, [] => []
  | reassembler, (now, envelope) :: rest =>
    (reassembler.observe codec now envelope).2 ::
      observeAll codec (reassembler.observe codec now envelope).1 rest

/-- The observations a shared run returns for one client's envelopes. -/
def observationsOf (codec : SegmentCodec) (clientId : ClientId) :
    ClientSegmentReassembler → List (Nat × ClientEnvelope) →
      List ClientSegmentObservation
  | _, [] => []
  | reassembler, (now, envelope) :: rest =>
    let (next, observation) := reassembler.observe codec now envelope
    if envelope.clientId = clientId then
      observation :: observationsOf codec clientId next rest
    else observationsOf codec clientId next rest

/-- Whenever the run starts an assembly, at most the maximal count minus one
other clients have one. -/
def Uncrowded (codec : SegmentCodec) : ClientSegmentReassembler → List (Nat × ClientEnvelope) → Prop
  | _, [] => True
  | reassembler, (now, envelope) :: rest =>
    (reassembler.startsAssembly envelope = true →
      reassembler.otherAssemblies envelope.clientId ≤
        remoteControlSegmentAssemblyMaxCount - 1) ∧
    Uncrowded codec (reassembler.observe codec now envelope).1 rest

instance decidableUncrowded (codec : SegmentCodec) :
    (reassembler : ClientSegmentReassembler) → (inputs : List (Nat × ClientEnvelope)) →
      Decidable (Uncrowded codec reassembler inputs)
  | _, [] => inferInstanceAs (Decidable True)
  | reassembler, (now, envelope) :: rest =>
    have := decidableUncrowded codec (reassembler.observe codec now envelope).1 rest
    inferInstanceAs (Decidable ((reassembler.startsAssembly envelope = true →
      reassembler.otherAssemblies envelope.clientId ≤
        remoteControlSegmentAssemblyMaxCount - 1) ∧
      Uncrowded codec (reassembler.observe codec now envelope).1 rest))

theorem observationsOf_eq_observeAll (clientId : ClientId) (inputs : List (Nat × ClientEnvelope))
    (shared alone : ClientSegmentReassembler)
    (agree : shared.assemblies.lookup clientId = alone.assemblies.lookup clientId)
    (uncrowded : Uncrowded codec shared inputs) : observationsOf codec clientId shared inputs =
    observeAll codec alone (inputs.filter fun input => decide (input.2.clientId = clientId)) := by
  induction inputs generalizing shared alone with
  | nil => rfl
  | cons input rest ih =>
    obtain ⟨now, envelope⟩ := input
    obtain ⟨room, restUncrowded⟩ := uncrowded
    by_cases own : envelope.clientId = clientId
    · subst own
      obtain ⟨sameObservation, sameAssembly⟩ :=
        observe_congr codec now agree
      simp only [observationsOf, if_true, decide_true, filter_cons_of_pos,
        observeAll, sameObservation]
      exact congrArg _ (ih _ _ sameAssembly restUncrowded)
    · have kept := shared.observe_lookup_other codec now envelope clientId
        (fun same => own same.symm) room
      rw [filter_cons_of_neg (by simpa using own)]
      simp only [observationsOf, if_neg own]
      exact ih _ _ (kept.trans agree) restUncrowded

/-- A client observes in a shared run what it observes alone. -/
theorem observations_isolated (codec : SegmentCodec) (clientId : ClientId)
    (inputs : List (Nat × ClientEnvelope)) (uncrowded : Uncrowded codec empty inputs) :
    observationsOf codec clientId empty inputs =
      observeAll codec empty
        (inputs.filter fun input => decide (input.2.clientId = clientId)) :=
  observationsOf_eq_observeAll codec clientId inputs empty empty rfl uncrowded

/-- The codecs on the two chunks of the message with method `a`. -/
def sampleCodec : SegmentCodec where
  decodedLenEstimate length := (length + 3) / 4 * 3
  decodeSlice chunk available :=
    if chunk = "eyJtZXRobw==" ∧ 7 ≤ available then
      .ok [123, 34, 109, 101, 116, 104, 111]
    else if chunk = "ZCI6ImEifQ==" ∧ 7 ≤ available then
      .ok [100, 34, 58, 34, 97, 34, 125]
    else .error .outputSliceTooSmall
  fromSlice raw :=
    if raw = [123, 34, 109, 101, 116, 104, 111, 100, 34, 58, 34, 97, 34, 125] then
      some (.notification "a" none)
    else none

def sampleChunk (client : String) (segmentId : Nat) (chunk : String) : ClientEnvelope :=
  ⟨.clientMessageChunk segmentId 2 14 chunk, ⟨client⟩, some ⟨"stream-1"⟩, some 7, none⟩

theorem interleaved_client_is_isolated :
    observationsOf sampleCodec ⟨"client-1"⟩ empty
        [(0, sampleChunk "client-1" 0 "eyJtZXRobw=="),
          (1, sampleChunk "client-2" 0 "eyJtZXRobw=="),
          (2, sampleChunk "client-2" 5 "ZCI6ImEifQ=="),
          (3, sampleChunk "client-1" 1 "ZCI6ImEifQ==")] =
      [.pending, .forward
        { sampleChunk "client-1" 1 "ZCI6ImEifQ==" with
          event := .clientMessage (.notification "a" none) }] := by
  rw [observations_isolated sampleCodec ⟨"client-1"⟩ _ (by decide)]
  decide

end ClientSegmentReassembler

end CodexFormal.RemoteControl
