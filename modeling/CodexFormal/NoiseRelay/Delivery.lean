import CodexFormal.NoiseRelay.VirtualStream

/-!
# Noise relay delivery

Whatever order the relay delivers the records in, and however often it repeats
them, the reader has at every point released a prefix of the records and
emitted the messages that this prefix completes.
-/

set_option autoImplicit false

namespace CodexFormal.NoiseRelay

open Foundation Option List OrderedCiphertextFrames

structure CutMessage where
  message : Bytes
  framed : Bytes
  pieces : List Bytes
  isFrame : frameMessage message = .ok framed
  isCut : IsCut noiseRecordPlaintextLen pieces framed

namespace CutMessage

/-- The writer's own cut, into records of the largest size. -/
def ofMessage (message : Bytes) (nonempty : 0 < message.length)
    (bounded : message.length ≤ maxNoiseJsonrpcMessageLen) : CutMessage where
  message := message
  framed := toBeBytes message.length ++ message
  pieces := chunks noiseRecordPlaintextLen (toBeBytes message.length ++ message)
  isFrame := frameMessage_ok message nonempty bounded
  isCut := chunks_isCut (by decide) _

variable (cut : CutMessage)

theorem pieces_ne_nil : cut.pieces ≠ [] := by
  intro empty
  have joined := cut.isCut.joined
  rw [empty, flatten_nil] at joined
  have size := length_frameMessage cut.message cut.framed cut.isFrame
  rw [← joined] at size
  simp only [lengthPrefixBytes, length_nil] at size
  omega

theorem framed_split (index : Nat) (piece : Bytes) (at_index : cut.pieces[index]? = some piece) :
    cut.framed = (cut.pieces.take index).flatten ++ piece ++
    (cut.pieces.drop (index + 1)).flatten := by
  obtain ⟨bound, isPiece⟩ := List.getElem?_eq_some_iff.mp at_index
  have around : cut.pieces = cut.pieces.take index ++ piece :: cut.pieces.drop (index + 1) := by
    rw [← isPiece, ← List.drop_eq_getElem_cons bound, List.take_append_drop]
  calc cut.framed = cut.pieces.flatten := cut.isCut.joined.symm
    _ = (cut.pieces.take index ++ piece :: cut.pieces.drop (index + 1)).flatten := by
        rw [← around]
    _ = _ := by simp

theorem rest_ne_nil (index : Nat) (more : index < cut.pieces.length) :
    (cut.pieces.drop index).flatten ≠ [] := by
  rw [List.drop_eq_getElem_cons more, flatten_cons]
  have nonempty := cut.isCut.nonempty _ (getElem_mem more)
  simp [nonempty]

end CutMessage

def recordsOf (sent : List CutMessage) : List Bytes := sent.flatMap CutMessage.pieces

/-- The messages whose records are all among the first `count`. -/
def completedBelow (count : Nat) : List CutMessage → List Bytes
  | [] => []
  | cut :: rest =>
    if cut.pieces.length ≤ count then
      cut.message :: completedBelow (count - cut.pieces.length) rest
    else []

/-- What the first `count` records contain of the message they break off in. -/
def bufferedBelow (count : Nat) : List CutMessage → Bytes
  | [] => []
  | cut :: rest =>
    if cut.pieces.length ≤ count then bufferedBelow (count - cut.pieces.length) rest
    else (cut.pieces.take count).flatten

variable (sent : List CutMessage)

theorem completedBelow_zero : completedBelow 0 sent = [] := by
  cases sent with
  | nil => rfl
  | cons cut rest =>
    have pos := length_pos_iff.mpr cut.pieces_ne_nil
    rw [completedBelow, if_neg (by omega)]

theorem bufferedBelow_zero : bufferedBelow 0 sent = [] := by
  cases sent with
  | nil => rfl
  | cons cut rest =>
    have pos := length_pos_iff.mpr cut.pieces_ne_nil
    rw [bufferedBelow, if_neg (by omega)]
    rfl

/-- The decoder takes the next record without an error, and emits the message
that the record completes. -/
theorem push_next (count : Nat) (record : Bytes) (next : (recordsOf sent)[count]? = some record) :
    ∃ messages, MessageDecoder.push ⟨bufferedBelow count sent⟩ record =
    (⟨bufferedBelow (count + 1) sent⟩, .ok messages) ∧
    completedBelow (count + 1) sent = completedBelow count sent ++ messages := by
  induction sent generalizing count with
  | nil => simp [recordsOf] at next
  | cons cut rest ih =>
    have unfold_records : recordsOf (cut :: rest) = cut.pieces ++ recordsOf rest := by
      simp [recordsOf]
    rw [unfold_records] at next
    by_cases later : cut.pieces.length ≤ count
    · rw [getElem?_append_right later] at next
      obtain ⟨messages, pushed, completed⟩ := ih (count - cut.pieces.length) next
      have shift : count + 1 - cut.pieces.length = count - cut.pieces.length + 1 := by omega
      have laterNext : cut.pieces.length ≤ count + 1 := by omega
      refine ⟨messages, ?_, ?_⟩
      · simp only [bufferedBelow, if_pos later, if_pos laterNext, shift]
        exact pushed
      · simp only [completedBelow, if_pos later, if_pos laterNext, shift, completed, cons_append]
    · rw [getElem?_append_left (by omega)] at next
      have split := cut.framed_split count record next
      have sized := cut.isCut.bounded record (mem_of_getElem? next)
      have joined : (cut.pieces.take (count + 1)).flatten =
          (cut.pieces.take count).flatten ++ record := by
        rw [take_add_one, next]
        simp
      by_cases more : count + 1 < cut.pieces.length
      · have notYet : ¬ cut.pieces.length ≤ count + 1 := by omega
        refine ⟨[], ?_, ?_⟩
        · simp only [bufferedBelow, if_neg later, if_neg notYet, joined]
          exact push_inner cut.isFrame split (cut.rest_ne_nil (count + 1) more) sized
        · simp only [completedBelow, if_neg later, if_neg notYet, append_nil]
      · -- the record is the last of its message
        have whole : cut.pieces.length ≤ count + 1 := by omega
        have nothingAfter : count + 1 - cut.pieces.length = 0 := by omega
        have ends : cut.framed = (cut.pieces.take count).flatten ++ record := by
          rw [drop_of_length_le whole, flatten_nil, append_nil] at split
          exact split
        refine ⟨[cut.message], ?_, ?_⟩
        · simp only [bufferedBelow, if_neg later, if_pos whole, nothingAfter, bufferedBelow_zero]
          exact push_last cut.isFrame ends sized
        · simp only [completedBelow, if_neg later, if_pos whole, nothingAfter,
            completedBelow_zero, nil_append]

variable (transport : NoiseTransport)

/-- The record at an index carries that index, and was encrypted under the
nonce that counts the records before it. -/
theorem writeRecords_getElem? (records : List Bytes) (nextSeq nonce index : Nat) (data : RelayData)
    (wrote : (writeRecords transport nextSeq nonce records)[index]? = some data) :
    data.seq = nextSeq + index ∧ ∃ record, records[index]? = some record ∧
    transport.encrypt (nonce + index) record = .ok data.payload := by
  induction records generalizing nextSeq nonce index with
  | nil => simp [writeRecords] at wrote
  | cons record rest ih =>
    unfold writeRecords takeNextSequence at wrote
    by_cases exhausted : nextSeq < u32Max
    · simp only [exhausted, if_true] at wrote
      cases sealed : transport.encrypt nonce record with
      | error error => simp [sealed] at wrote
      | ok ciphertext =>
        simp only [sealed] at wrote
        cases index with
        | zero =>
          cases some.inj wrote
          exact ⟨rfl, record, rfl, sealed⟩
        | succ index =>
          obtain ⟨seq, plaintext, found, sealedLater⟩ :=
            ih (nextSeq + 1) (nonce + 1) index wrote
          have shift : nonce + (index + 1) = nonce + 1 + index := by omega
          refine ⟨by omega, plaintext, found, ?_⟩
          rw [shift]
          exact sealedLater
    · simp [exhausted] at wrote

/-- Everything the writer puts on the relay. -/
def transmitted (transport : NoiseTransport) (sent : List CutMessage) : List RelayData :=
  writeRecords transport 0 0 (recordsOf sent)

def ciphertextsOf (transport : NoiseTransport) (sent : List CutMessage) : List Bytes :=
  (transmitted transport sent).map RelayData.payload

theorem transmitted_payload (sent : List CutMessage)
    (data : RelayData) (mem : data ∈ transmitted transport sent) :
    (ciphertextsOf transport sent)[data.seq]? = some data.payload := by
  obtain ⟨index, found⟩ := mem_iff_getElem?.mp mem
  obtain ⟨seq, _⟩ := writeRecords_getElem? transport (recordsOf sent) 0 0 index data found
  have isIndex : data.seq = index := by omega
  rw [isIndex, ciphertextsOf, getElem?_map, found]
  rfl

theorem ciphertext_decrypts (inverse : transport.Inverse)
    (sent : List CutMessage) (index : Nat) (ciphertext : Bytes)
    (found : (ciphertextsOf transport sent)[index]? = some ciphertext) :
    ∃ record, (recordsOf sent)[index]? = some record ∧
    transport.decrypt index ciphertext = .ok record := by
  rw [ciphertextsOf, getElem?_map] at found
  obtain ⟨data, wrote, rfl⟩ := map_eq_some_iff.mp found
  obtain ⟨_, record, isRecord, sealed⟩ :=
    writeRecords_getElem? transport (recordsOf sent) 0 0 index data wrote
  rw [Nat.zero_add] at sealed
  exact ⟨record, isRecord, inverse index record data.payload sealed⟩

/-- The reader has released and decoded the first `nextSeq` records. -/
structure ReceivedAt (transport : NoiseTransport) (sent : List CutMessage)
    (stream : NoiseVirtualStream) : Prop where
  buffered : stream.inboundCiphertexts.Buffered (ciphertextsOf transport sent)
  bound : stream.inboundCiphertexts.nextSeq ≤ (ciphertextsOf transport sent).length
  nonce : stream.receiveNonce = stream.inboundCiphertexts.nextSeq
  decoder : stream.inboundDecoder = ⟨bufferedBelow stream.inboundCiphertexts.nextSeq sent⟩

theorem receivedAt_new (sent : List CutMessage) : ReceivedAt transport sent .new where
  buffered := empty_buffered _
  bound := Nat.zero_le _
  nonce := rfl
  decoder := by
    show (⟨[]⟩ : MessageDecoder) = ⟨bufferedBelow 0 sent⟩
    rw [bufferedBelow_zero]

theorem deliverAll_ok {deliver : Bytes → Except String Unit}
    (accepts : ∀ msg, deliver msg = .ok ()) (msgs : List Bytes) :
    deliverAll deliver msgs = .ok () := by
  induction msgs with
  | nil => rfl
  | cons msg rest ih => simp [deliverAll, accepts msg, ih]

/-- The loop over released ciphertexts decodes every one of them, or stops
because a message could not be delivered. -/
theorem receiveCiphertexts_spec (inverse : transport.Inverse)
    (deliver : Bytes → Except String Unit) (sent : List CutMessage)
    (freed later : List Bytes) (count : Nat) (stream : NoiseVirtualStream)
    (gapless : (ciphertextsOf transport sent).drop count = freed ++ later)
    (nonce : stream.receiveNonce = count)
    (decoder : stream.inboundDecoder = ⟨bufferedBelow count sent⟩) :
    let got := stream.receiveCiphertexts transport deliver freed
    (got.2.2 = .ok () →
        got.1.inboundCiphertexts = stream.inboundCiphertexts ∧
        got.1.receiveNonce = count + freed.length ∧
        got.1.inboundDecoder = ⟨bufferedBelow (count + freed.length) sent⟩ ∧
        completedBelow (count + freed.length) sent =
          completedBelow count sent ++ got.2.1) ∧
      ((∀ msg, deliver msg = .ok ()) → got.2.2 = .ok ()) := by
  induction freed generalizing count stream with
  | nil =>
    exact ⟨fun _ => ⟨rfl, nonce, decoder, (append_nil _).symm⟩, fun _ => rfl⟩
  | cons ciphertext rest ih =>
    have found : (ciphertextsOf transport sent)[count]? = some ciphertext := by
      have head := congrArg List.head? gapless
      rwa [head?_drop] at head
    have contiguousRest : (ciphertextsOf transport sent).drop (count + 1) = rest ++ later := by
      rw [← tail_drop, gapless]
      rfl
    obtain ⟨record, isRecord, opened⟩ :=
      ciphertext_decrypts transport inverse sent count ciphertext found
    obtain ⟨msgs, pushed, completed⟩ := push_next sent count record isRecord
    have shift : count + (ciphertext :: rest).length = count + 1 + rest.length := by
      simp only [length_cons]
      omega
    obtain ⟨read, delivered⟩ := ih (count + 1) { stream with
        inboundDecoder := ⟨bufferedBelow (count + 1) sent⟩
        receiveNonce := count + 1 } contiguousRest rfl rfl
    simp only [NoiseVirtualStream.receiveCiphertexts, nonce, opened, decoder, pushed, shift]
    cases delivery : deliverAll deliver msgs with
    | error error =>
      refine ⟨fun failed => by contradiction, ?_⟩
      intro accepts
      rw [deliverAll_ok accepts msgs] at delivery
      contradiction
    | ok done =>
      refine ⟨?_, delivered⟩
      intro succeeded
      obtain ⟨sameFrames, nonceAfter, decoderAfter, completedAfter⟩ := read succeeded
      refine ⟨sameFrames, nonceAfter, decoderAfter, ?_⟩
      rw [completedAfter, completed, append_assoc]

/-- The frames between two sequence numbers, as the part of the ciphertexts that
starts at the first. -/
theorem drop_of_released {ciphertexts freed : List Bytes} {pre after : Nat}
    (run : ciphertexts.take pre ++ freed = ciphertexts.take after)
    (boundBefore : pre ≤ ciphertexts.length) (boundAfter : after ≤ ciphertexts.length) :
    ciphertexts.drop pre = freed ++ ciphertexts.drop after ∧
    after = pre + freed.length := by
  have sizes := congrArg List.length run
  rw [length_append, length_take, length_take, Nat.min_eq_left boundBefore,
    Nat.min_eq_left boundAfter] at sizes
  refine ⟨?_, sizes.symm⟩
  have whole : ciphertexts.take pre ++ ciphertexts.drop pre =
      ciphertexts.take pre ++ (freed ++ ciphertexts.drop after) := by
    rw [List.take_append_drop, ← append_assoc, run, List.take_append_drop]
  exact append_cancel_left whole

variable {transport} in
/-- One arrival of a transmitted record: nothing but a failed delivery can go
wrong after the reordering has accepted it, and what was released and emitted
extends to the new sequence number. -/
theorem receiveData_spec (inverse : transport.Inverse)
    (deliver : Bytes → Except String Unit) {sent : List CutMessage}
    {stream : NoiseVirtualStream} (got : ReceivedAt transport sent stream)
    {data : RelayData} (mem : data ∈ transmitted transport sent) :
    let outcome := stream.receiveData transport deliver data
    (outcome.result = .ok () →
        ReceivedAt transport sent outcome.stream ∧
        (ciphertextsOf transport sent).take outcome.stream.inboundCiphertexts.nextSeq =
          (ciphertextsOf transport sent).take stream.inboundCiphertexts.nextSeq ++
            outcome.released ∧
        completedBelow outcome.stream.inboundCiphertexts.nextSeq sent =
          completedBelow stream.inboundCiphertexts.nextSeq sent ++ outcome.messages) ∧
      ((∀ msg, deliver msg = .ok ()) → ∀ error, outcome.result = .error error →
        (stream.inboundCiphertexts.push data.seq data.payload).2 = .error error) := by
  intro outcome
  simp only [outcome, NoiseVirtualStream.receiveData]
  cases pushed : stream.inboundCiphertexts.push data.seq data.payload with
  | mk after result =>
    cases result with
    | error error =>
      refine ⟨fun failed => by contradiction, ?_⟩
      intro _ other failed
      cases Except.error.inj failed
      rfl
    | ok released =>
      obtain ⟨buffered, gapless, bound, _⟩ := push_spec
        (ciphertextsOf transport sent) stream.inboundCiphertexts got.buffered
        got.bound data.seq data.payload
        (transmitted_payload transport sent data mem) after released pushed
      obtain ⟨dropped, size⟩ := drop_of_released gapless got.bound bound
      obtain ⟨read, delivered⟩ := receiveCiphertexts_spec transport inverse deliver sent
        released _ stream.inboundCiphertexts.nextSeq
        { stream with inboundCiphertexts := after } dropped got.nonce
        got.decoder
      refine ⟨?_, ?_⟩
      · intro succeeded
        obtain ⟨sameFrames, nonce, decoder, completed⟩ := read succeeded
        have next : (({ stream with inboundCiphertexts := after } :
            NoiseVirtualStream).receiveCiphertexts transport deliver
              released).1.inboundCiphertexts.nextSeq =
            stream.inboundCiphertexts.nextSeq + released.length := by
          rw [sameFrames, ← size]
        refine ⟨⟨?_, ?_, ?_, ?_⟩, ?_, ?_⟩
        · rw [sameFrames]
          exact buffered
        · rw [sameFrames]
          exact bound
        · rw [nonce, next]
        · rw [decoder, next]
        · rw [next, ← size, gapless]
        · rw [next, completed]
      · intro accepts error failed
        simp only at failed
        rw [delivered accepts] at failed
        contradiction

def releasedOf (outputs : List RelayOutput) : List Bytes :=
  outputs.filterMap fun
    | .released ciphertext => some ciphertext
    | .message _ => none

def messagesOf (outputs : List RelayOutput) : List Bytes :=
  outputs.filterMap fun
    | .released _ => none
    | .message bytes => some bytes

theorem outputs_of_outcome (outcome : ReceiveOutcome) :
    releasedOf outcome.outputs = outcome.released ∧
    messagesOf outcome.outputs = outcome.messages := by
  simp [releasedOf, messagesOf, ReceiveOutcome.outputs]

/-- What was output so far belongs to the current sequence number. -/
structure DeliveredAt (transport : NoiseTransport) (sent : List CutMessage)
    (outputs : List RelayOutput) (stream : NoiseVirtualStream) : Prop where
  received : ReceivedAt transport sent stream
  released : releasedOf outputs =
    (ciphertextsOf transport sent).take stream.inboundCiphertexts.nextSeq
  messages : messagesOf outputs = completedBelow stream.inboundCiphertexts.nextSeq sent

variable {transport} in
theorem relayStep_deliveredAt (inverse : transport.Inverse)
    {deliver : Bytes → Except String Unit} {sent : List CutMessage}
    {history outputs : List RelayOutput} {stream after : NoiseVirtualStream}
    {data : RelayData} (mem : data ∈ transmitted transport sent)
    (delivered : DeliveredAt transport sent history stream)
    (ran : (relayMachine transport deliver).step stream data = some (after, outputs)) :
    DeliveredAt transport sent (history ++ outputs) after := by
  obtain ⟨runs, _⟩ := receiveData_spec inverse deliver delivered.received mem
  simp only [relayMachine] at ran
  split at ran
  · contradiction
  next succeeded =>
    cases some.inj ran
    obtain ⟨received, released, messages⟩ := runs succeeded
    obtain ⟨releasedNow, messagesNow⟩ := outputs_of_outcome
      (stream.receiveData transport deliver data)
    refine ⟨received, ?_, ?_⟩
    · rw [released, ← delivered.released, ← releasedNow]
      exact filterMap_append
    · rw [messages, ← delivered.messages, ← messagesNow]
      exact filterMap_append

/-- After any arrivals of transmitted records, in any order and number, that the
reader has accepted: the released ciphertexts are the first `nextSeq` records in
order, the emitted messages are those whose records are all among them, and the
only error the next arrival can raise by itself is one of the reordering
buffer. -/
theorem relay_delivers_records_in_order (transport : NoiseTransport)
    (inverse : transport.Inverse) (deliver : Bytes → Except String Unit)
    (sent : List CutMessage) (arrivals : List RelayData)
    (genuine : ∀ data ∈ arrivals, data ∈ transmitted transport sent)
    (final : NoiseVirtualStream) (outputs : List RelayOutput)
    (run : (relayMachine transport deliver).run .new arrivals = some (final, outputs)) :
    releasedOf outputs =
        ((transmitted transport sent).take final.inboundCiphertexts.nextSeq).map
          RelayData.payload ∧
      messagesOf outputs = completedBelow final.inboundCiphertexts.nextSeq sent ∧
      final.inboundCiphertexts.nextSeq ≤ (transmitted transport sent).length ∧
      ((∀ message, deliver message = .ok ()) → ∀ data ∈ transmitted transport sent, ∀ error,
        (final.receiveData transport deliver data).result = .error error →
          (final.inboundCiphertexts.push data.seq data.payload).2 = .error error) := by
  have fresh : DeliveredAt transport sent [] .new :=
    ⟨receivedAt_new transport sent, rfl, (completedBelow_zero sent).symm⟩
  have delivered : DeliveredAt transport sent outputs final :=
    (relayMachine transport deliver).run_history (fun data => data ∈ transmitted transport sent)
      (DeliveredAt transport sent)
      (fun history stream data after outputs => relayStep_deliveredAt inverse)
      arrivals genuine .new final [] outputs fresh run
  refine ⟨?_, delivered.messages, ?_, ?_⟩
  · rw [map_take]
    exact delivered.released
  · have bound := delivered.received.bound
    rwa [ciphertextsOf, length_map] at bound
  · intro accepts data mem
    exact (receiveData_spec inverse deliver delivered.received mem).2 accepts

def plainTransport : NoiseTransport where
  encrypt := fun _ plaintext => .ok plaintext
  decrypt := fun _ ciphertext => .ok ciphertext

def sampleSent : List CutMessage :=
  [.ofMessage [1, 2, 3] (by decide) (by decide), .ofMessage [7] (by decide) (by decide)]

theorem plainTransport_inverse : plainTransport.Inverse := by
  intro nonce plaintext ciphertext sealed
  cases Except.ok.inj sealed
  rfl

/-- The second record has arrived and waits for the first. -/
def afterGap : NoiseVirtualStream := ⟨⟨0, AList.singleton 1 [0, 0, 0, 1, 7], 5⟩, ⟨[]⟩, 0⟩
def afterBoth : NoiseVirtualStream := ⟨⟨2, ∅, 0⟩, ⟨[]⟩, 2⟩

theorem first_fills_gap :
    (relayMachine plainTransport fun _ => .ok ()).step afterGap ⟨0, [0, 0, 0, 3, 1, 2, 3]⟩ =
    some (afterBoth, [.released [0, 0, 0, 3, 1, 2, 3], .released [0, 0, 0, 1, 7],
    .message [1, 2, 3], .message [7]]) := by
  have released : afterGap.inboundCiphertexts.push 0 [0, 0, 0, 3, 1, 2, 3] =
      (⟨2, ∅, 0⟩, .ok [[0, 0, 0, 3, 1, 2, 3], [0, 0, 0, 1, 7]]) := by
    show releasePending ⟨1, AList.singleton 1 [0, 0, 0, 1, 7], 5⟩ [[0, 0, 0, 3, 1, 2, 3]] = _
    rw [releasePending_of_some _ ⟨2, ∅, 0⟩ _ [0, 0, 0, 1, 7] rfl rfl]
    exact releasePending_of_none _ _ rfl
  have first : MessageDecoder.push ⟨[]⟩ [0, 0, 0, 3, 1, 2, 3] = (⟨[]⟩, .ok [[1, 2, 3]]) :=
    push_last rfl rfl (by decide)
  have second : MessageDecoder.push ⟨[]⟩ [0, 0, 0, 1, 7] = (⟨[]⟩, .ok [[7]]) :=
    push_last rfl rfl (by decide)
  have decoder : afterGap.inboundDecoder = ⟨[]⟩ := rfl
  simp only [relayMachine, NoiseVirtualStream.receiveData, released,
    NoiseVirtualStream.receiveCiphertexts, plainTransport, decoder, first, second, deliverAll]
  rfl

theorem gap_filled_later_delivers_both :
    ∃ final outputs,
      (relayMachine plainTransport fun _ => .ok ()).run .new
          [⟨1, [0, 0, 0, 1, 7]⟩, ⟨1, [0, 0, 0, 1, 7]⟩, ⟨0, [0, 0, 0, 3, 1, 2, 3]⟩] =
        some (final, outputs) ∧
      messagesOf outputs = completedBelow final.inboundCiphertexts.nextSeq sampleSent ∧
        completedBelow final.inboundCiphertexts.nextSeq sampleSent = [[1, 2, 3], [7]] := by
  have gap : (relayMachine plainTransport fun _ => .ok ()).run .new
    [⟨1, [0, 0, 0, 1, 7]⟩, ⟨1, [0, 0, 0, 1, 7]⟩] = some (afterGap, []) := rfl
  have filled : (relayMachine plainTransport fun _ => .ok ()).run afterGap
      [⟨0, [0, 0, 0, 3, 1, 2, 3]⟩] = some (afterBoth,
        [.released [0, 0, 0, 3, 1, 2, 3], .released [0, 0, 0, 1, 7], .message [1, 2, 3],
        .message [7]]) := by
    simp only [Machine.run, first_fills_gap]
    rfl
  have run := Machine.run_append _ _ _ _ _ _ _ _ gap filled
  exact ⟨_, _, run, (relay_delivers_records_in_order plainTransport plainTransport_inverse
    (fun _ => .ok ()) sampleSent _ (by decide) _ _ run).2.1, by decide⟩
end CodexFormal.NoiseRelay
