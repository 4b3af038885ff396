import CodexFormal.RemoteControl.ClientReplay

/-!
# Replayed client messages are delivered once and in order

The reader's state is described by the messages that are complete and the
number of chunks of the next one.  A repeated frame leaves that description as
it is and hands nothing on; the first unseen frame advances it by one.  The one
repeated frame the reader does not recognise is a whole initialize, which opens
a new connection every time it arrives.
-/

set_option autoImplicit false

namespace CodexFormal.RemoteControl

open Foundation Option List ClientSegmentReassembler Sender

/-- The messages `done` are complete, and `count` chunks of the first message
of `rest` have arrived. -/
structure ReplayAt (sender : Sender) (done rest : List EmittedMessage) (count : Nat)
    (reader : Reader) : Prop where
  tracked : TrackerAt sender.key done reader.tracker
  chunks : ChunksAt sender done reader.websocket
  idle : count = 0 →
    reader.websocket.clientSegmentReassembler.assemblies.lookup sender.clientId = none
  assembling : 0 < count → ∃ emitted later pieces,
    rest = emitted :: later ∧ emitted.pieces = some pieces ∧ count < pieces.length ∧
      AssemblyAt sender emitted.seqId pieces count reader.websocket

variable (sender : Sender) (messages : List EmittedMessage)

open WebsocketState

theorem replayAt_new : ReplayAt sender [] messages 0 ⟨.new, .new⟩ where
  tracked := ⟨rfl, fun _ => rfl, by simp⟩
  chunks := ⟨by simp, by simp [new]⟩
  idle := fun _ => rfl
  assembling := by simp

/-! ## Frames of an emission -/

variable (emitted : EmittedMessage)

variable {sender emitted} in
theorem frames_whole (whole : emitted.pieces = none) :
    sender.frames emitted = [sender.messageEnvelope emitted 0] := by
  simp [frames, messageEnvelope, whole]

variable {emitted} in
theorem frames_cut {pieces : List (List UInt8)} (cut : emitted.pieces = some pieces) (count : Nat) :
    (sender.frames emitted)[count]? = pieces[count]?.map fun piece =>
    sender.chunkEnvelope emitted.seqId pieces piece count := by
  simp only [frames, cut, List.getElem?_map, List.getElem?_zipIdx, Option.map_map]
  cases pieces[count]? with
  | none => rfl
  | some piece => simp

variable {emitted} in
theorem length_frames_cut {pieces : List (List UInt8)} (cut : emitted.pieces = some pieces) :
    (sender.frames emitted).length = pieces.length := by
  simp [frames, cut]

variable (done rest : List EmittedMessage)

theorem emission_append :
    sender.emission (done ++ rest) = sender.emission done ++ sender.emission rest :=
  flatMap_append

theorem mem_emission (envelope : ClientEnvelope) (mem : envelope ∈ sender.emission messages) :
    ∃ emitted ∈ messages, (emitted.pieces = none ∧ envelope = sender.messageEnvelope emitted 0) ∨
    ∃ pieces piece segmentId, emitted.pieces = some pieces ∧
    envelope = sender.chunkEnvelope emitted.seqId pieces piece segmentId := by
  obtain ⟨emitted, emittedMem, frame⟩ := mem_flatMap.mp mem
  refine ⟨emitted, emittedMem, ?_⟩
  cases shape : emitted.pieces with
  | none =>
    rw [frames_whole shape] at frame
    exact .inl ⟨rfl, mem_singleton.mp frame⟩
  | some pieces =>
    obtain ⟨segmentId, found⟩ := mem_iff_getElem?.mp frame
    rw [frames_cut sender shape] at found
    obtain ⟨piece, _, isChunk⟩ := map_eq_some_iff.mp found
    exact .inr ⟨pieces, piece, segmentId, rfl, isChunk.symm⟩

/-! ## One received frame -/

variable (websocket : WebsocketState) (codec : SegmentCodec) (ctx : ReadContext)

theorem observeClientMessage_whole (emitted : EmittedMessage) (segmentId : Nat) :
    websocket.observeClientMessage codec ctx.now
        (sender.messageEnvelope emitted segmentId) ctx.wireSizeBytes =
      (websocket, .forward (sender.messageEnvelope emitted segmentId)) :=
  rfl

def WebsocketState.delivered (websocket : WebsocketState) (received : ClientEnvelope)
    (cursor : Option String) : WebsocketState :=
  { websocket with
    subscribeCursor := cursor
    lastCompletedClientChunkSeqIdByStream :=
      match WebsocketState.clientMessageKey received with
      | some (key, seqId) =>
        websocket.lastCompletedClientChunkSeqIdByStream.insert key seqId
      | none => websocket.lastCompletedClientChunkSeqIdByStream }

/-- A complete message is handed to the tracker; its delivery then moves the
cursors and nothing else. -/
theorem readEnvelope_forwarded (reader : Reader) (codec : SegmentCodec)
    (ctx : ReadContext) (got : ClientEnvelope) (websocket : WebsocketState)
    (emitted : EmittedMessage) (segmentId : Nat)
    (observed : reader.websocket.observeClientMessage codec ctx.now got
      ctx.wireSizeBytes = (websocket, .forward (sender.messageEnvelope emitted segmentId))) :
    let handled := reader.tracker.handleMessage ctx.now ctx.fresh ctx.accepts
      (sender.messageEnvelope emitted segmentId)
    ∃ cursor, reader.readEnvelope codec ctx got = some
      (if handled.stopped then ⟨⟨handled.tracker, websocket⟩, handled.events, true⟩
      else ⟨⟨handled.tracker, websocket.delivered got cursor⟩, handled.events, false⟩) := by
  intro handled
  refine ⟨(sender.messageEnvelope emitted segmentId).cursor <|> websocket.subscribeCursor, ?_⟩
  simp only [Reader.readEnvelope, observed]
  by_cases stopped : handled.stopped
  · simp only [handled] at stopped ⊢
    rw [if_pos stopped, if_pos stopped]
  · simp only [handled] at stopped ⊢
    rw [if_neg stopped, if_neg stopped]
    rfl

theorem ReplayAt.of_cursor {sender : Sender} {done rest : List EmittedMessage}
    {count : Nat} {reader : Reader} (replay : ReplayAt sender done rest count reader)
    (cursor : Option String) : ReplayAt sender done rest count
      ⟨reader.tracker, { reader.websocket with subscribeCursor := cursor }⟩ :=
  ⟨replay.tracked, ⟨replay.chunks.completed, replay.chunks.bounded⟩, replay.idle, replay.assembling⟩

theorem readEnvelope_dropped {reader : Reader} {codec : SegmentCodec}
    {ctx : ReadContext} {envelope : ClientEnvelope}
    (dropped : reader.websocket.observeClientMessage codec ctx.now envelope
    ctx.wireSizeBytes = (reader.websocket, .dropped)) :
    reader.readEnvelope codec ctx envelope = some ⟨reader, [], false⟩ := by
  simp [Reader.readEnvelope, dropped]

variable {codec} in
/-- A frame that was received before, other than a whole initialize, changes
nothing. -/
theorem readEnvelope_repeated {sender : Sender} {done rest : List EmittedMessage}
    (valid : ValidEmission codec sender (done ++ rest)) {count : Nat} {reader : Reader}
    (replay : ReplayAt sender done rest count reader) (ctx : ReadContext)
    {pos : Nat} (old : pos < (sender.emission done).length + count) {envelope : ClientEnvelope}
    (got : (sender.emission (done ++ rest))[pos]? = some envelope)
    (plain : envelope.isInitialize = false) :
    ∃ after, reader.readEnvelope codec ctx envelope = some ⟨after, [], false⟩ ∧
    ReplayAt sender done rest count after := by
  rw [emission_append] at got
  by_cases inDone : pos < (sender.emission done).length
  · rw [getElem?_append_left inDone] at got
    obtain ⟨emitted, mem, ⟨_, rfl⟩ | ⟨pieces, piece, segmentId, cut, rfl⟩⟩ :=
      mem_emission sender done envelope (mem_of_getElem? got)
    · have handled := handleMessage_repeated sender valid.named done reader.tracker
        replay.tracked (List.pairwise_append.mp valid.increasing).1 ctx emitted mem
        plain 0
      obtain ⟨cursor, read⟩ := readEnvelope_forwarded sender reader codec ctx _ _ emitted
        0 (observeClientMessage_whole sender reader.websocket codec ctx emitted 0)
      refine ⟨_, ?_, replay.of_cursor cursor⟩
      rw [read, handled]
      rfl
    · exact ⟨reader, readEnvelope_dropped
        (observeClientMessage_completed sender done reader.websocket replay.chunks codec
        ctx emitted mem pieces cut piece segmentId), replay⟩
  · rw [getElem?_append_right (by omega)] at got
    obtain ⟨emitted, later, pieces, rfl, cut, bound, assembled⟩ :=
      replay.assembling (by omega)
    have frame : (sender.frames emitted)[pos - (sender.emission done).length]? =
        some envelope := by
      have within : pos - (sender.emission done).length < (sender.frames emitted).length := by
        rw [length_frames_cut sender cut]
        omega
      rw [← got]
      exact (getElem?_append_left within).symm
    rw [frames_cut sender cut] at frame
    obtain ⟨piece, _, rfl⟩ := map_eq_some_iff.mp frame
    exact ⟨reader, readEnvelope_dropped (observeClientMessage_assembled
      assembled codec ctx piece (by omega)), replay⟩

theorem ChunksAt.whole {sender : Sender} {done : List EmittedMessage}
    {websocket : WebsocketState} (chunks : ChunksAt sender done websocket)
    (emitted : EmittedMessage) (whole : emitted.pieces = none) :
    ChunksAt sender (done ++ [emitted]) websocket where
  completed := by
    intro other mem cut
    rcases mem_append.mp mem with old | new
    · exact chunks.completed other old cut
    · rw [mem_singleton.mp new] at cut
      contradiction
  bounded := by
    intro last found
    obtain ⟨other, mem, same⟩ := chunks.bounded last found
    exact ⟨other, mem_append_left _ mem, same⟩

theorem chunksAt_cut (done : List EmittedMessage)
    (websocket : WebsocketState) (emitted : EmittedMessage)
    (above : ∀ earlier ∈ done, earlier.seqId < emitted.seqId) (after : WebsocketState)
    (added : after.lastCompletedClientChunkSeqIdByStream =
    websocket.lastCompletedClientChunkSeqIdByStream.insert
    (sender.clientId, some sender.streamId) emitted.seqId) :
    ChunksAt sender (done ++ [emitted]) after where
  completed := by
    intro other mem cut
    refine ⟨emitted.seqId, by rw [added, AList.lookup_insert], ?_⟩
    rcases mem_append.mp mem with old | new
    · exact Nat.le_of_lt (above other old)
    · rw [mem_singleton.mp new]
  bounded := by
    intro last found
    rw [added, AList.lookup_insert] at found
    exact ⟨emitted, mem_append_right _ List.mem_cons_self, Option.some.inj found⟩

section

variable (sender : Sender) (done later : List EmittedMessage) (emitted : EmittedMessage)
  (valid : ValidEmission codec sender (done ++ emitted :: later))

include valid

theorem delivered_next (tracker : ClientTracker) (tracked : TrackerAt sender.key done tracker)
    (ctx : ReadContext) (segmentId : Nat) (websocket : WebsocketState)
    (idle : websocket.clientSegmentReassembler.assemblies.lookup sender.clientId = none)
    (chunks : ChunksAt sender (done ++ [emitted]) websocket)
    (runs : (tracker.handleMessage ctx.now ctx.fresh ctx.accepts
      (sender.messageEnvelope emitted segmentId)).stopped = false) :
    let handled := tracker.handleMessage ctx.now ctx.fresh ctx.accepts
      (sender.messageEnvelope emitted segmentId)
    ReplayAt sender (done ++ [emitted]) later 0 ⟨handled.tracker, websocket⟩ ∧
      expectedHandover 0 done ++ handed handled.events =
        expectedHandover 0 (done ++ [emitted]) := by
  intro handled
  have above : ∀ earlier ∈ done, earlier.seqId < emitted.seqId := fun earlier mem =>
    (List.pairwise_append.mp valid.increasing).2.2 earlier mem emitted List.mem_cons_self
  have opens : done = [] → emitted.isInitialize = true := by
    intro empty
    apply valid.opens
    simp [empty]
  obtain ⟨trackedAfter, handedOne⟩ := handleMessage_next sender valid.named done tracker
    tracked ctx emitted segmentId above opens runs
  refine ⟨⟨trackedAfter, chunks, fun _ => idle, by simp⟩, ?_⟩
  rw [expectedHandover_append, Nat.zero_add]
  exact congrArg (expectedHandover 0 done ++ ·) handedOne

/-- After the outcome the reader has received `frameCount` frames, and what it
has handed on extends to the messages they complete. -/
def AdvancesTo (sender : Sender) (messages done : List EmittedMessage) (frameCount : Nat)
    (outcome : ReaderOutcome) : Prop :=
  ∃ doneAfter restAfter countAfter, messages = doneAfter ++ restAfter ∧
    (sender.emission doneAfter).length + countAfter = frameCount ∧
    ReplayAt sender doneAfter restAfter countAfter outcome.reader ∧
    expectedHandover 0 done ++ handed outcome.events = expectedHandover 0 doneAfter

theorem advancesTo_completed (reader : Reader)
    (tracked : TrackerAt sender.key done reader.tracker) (ctx : ReadContext)
    (got : ClientEnvelope) (segmentId : Nat) (websocket : WebsocketState)
    (observed : reader.websocket.observeClientMessage codec ctx.now got
    ctx.wireSizeBytes = (websocket, .forward (sender.messageEnvelope emitted segmentId)))
    (idle : websocket.clientSegmentReassembler.assemblies.lookup sender.clientId = none)
    (chunks : ∀ cursor, ChunksAt sender (done ++ [emitted]) (websocket.delivered got cursor))
    (outcome : ReaderOutcome) (read : reader.readEnvelope codec ctx got = some outcome)
    (runs : outcome.stopped = false) : AdvancesTo sender (done ++ emitted :: later) done
    ((sender.emission done).length + (sender.frames emitted).length) outcome := by
  obtain ⟨cursor, forwarded⟩ := readEnvelope_forwarded sender reader codec ctx got
    websocket emitted segmentId observed
  rw [forwarded] at read
  split at read
  · cases Option.some.inj read
    contradiction
  next alive =>
    cases Option.some.inj read
    obtain ⟨after, handover⟩ := delivered_next codec sender done later emitted valid
      reader.tracker tracked ctx segmentId (websocket.delivered got cursor) idle
      (chunks cursor) (by simpa using alive)
    refine ⟨done ++ [emitted], later, 0, by simp, ?_, after, handover⟩
    simp [emission]

end

section

variable {sender : Sender} {done later : List EmittedMessage} {emitted : EmittedMessage}
  (valid : ValidEmission codec sender (done ++ emitted :: later))

include valid

variable {codec} in
theorem advancesTo_whole {reader : Reader}
    (replay : ReplayAt sender done (emitted :: later) 0 reader) {ctx : ReadContext}
    (whole : emitted.pieces = none) {outcome : ReaderOutcome}
    (read : reader.readEnvelope codec ctx (sender.messageEnvelope emitted 0) = some outcome)
    (runs : outcome.stopped = false) : AdvancesTo sender (done ++ emitted :: later) done
    ((sender.emission done).length + 1) outcome := by
  have single : (sender.frames emitted).length = 1 := by
    rw [frames_whole whole]
    rfl
  rw [← single]
  exact advancesTo_completed codec sender done later emitted valid reader replay.tracked
    ctx _ 0 reader.websocket
    (observeClientMessage_whole sender reader.websocket codec ctx emitted 0)
    (replay.idle rfl)
    (fun cursor => (replay.of_cursor cursor).chunks.whole emitted whole)
    outcome read runs

variable {codec} in
theorem advancesTo_chunk {count : Nat}
    {reader : Reader} (replay : ReplayAt sender done (emitted :: later) count reader)
    {ctx : ReadContext} (sized : ctx.wireSizeBytes ≤ remoteControlSegmentMaxBytes)
    {pieces : List (List UInt8)} (cut : emitted.pieces = some pieces) {piece : List UInt8}
    (at_count : pieces[count]? = some piece) {outcome : ReaderOutcome}
    (read : reader.readEnvelope codec ctx
    (sender.chunkEnvelope emitted.seqId pieces piece count) = some outcome)
    (runs : outcome.stopped = false) : AdvancesTo sender (done ++ emitted :: later) done
    ((sender.emission done).length + count + 1) outcome := by
  have bound : count < pieces.length := (List.getElem?_eq_some_iff.mp at_count).1
  have above : ∀ earlier ∈ done, earlier.seqId < emitted.seqId := fun earlier mem =>
    (List.pairwise_append.mp valid.increasing).2.2 earlier mem emitted List.mem_cons_self
  have assembled : AssemblyAt sender emitted.seqId pieces count reader.websocket := by
    rcases Nat.eq_zero_or_pos count with zero | pos
    · exact .inl ⟨zero, replay.idle zero⟩
    · obtain ⟨_, _, _, same, sameCut, _, assembled⟩ := replay.assembling pos
      cases same
      cases Option.some.inj (cut.symm.trans sameCut)
      exact assembled
  obtain ⟨after, assembledAfter, observed⟩ := observeClientMessage_next codec sender done
    emitted pieces (valid.wellCut emitted (by simp) pieces cut) reader.websocket replay.chunks
    above ctx sized count assembled piece at_count
  by_cases more : count + 1 < pieces.length
  · rw [if_pos more] at assembledAfter observed
    have pending : reader.readEnvelope codec ctx
        (sender.chunkEnvelope emitted.seqId pieces piece count) = some
          ⟨⟨reader.tracker, { reader.websocket with clientSegmentReassembler := after }⟩, [],
          false⟩ := by
      simp [Reader.readEnvelope, observed]
    rw [pending] at read
    cases Option.some.inj read
    refine ⟨done, emitted :: later, count + 1, rfl, rfl, ?_, by simp [handed]⟩
    exact ⟨replay.tracked, ⟨replay.chunks.completed, replay.chunks.bounded⟩, by simp,
      fun _ => ⟨emitted, later, pieces, rfl, cut, more, assembledAfter⟩⟩
  · rw [if_neg more] at assembledAfter observed
    have last : (sender.emission done).length + count + 1 =
        (sender.emission done).length + (sender.frames emitted).length := by
      rw [length_frames_cut sender cut]
      omega
    have idle : after.assemblies.lookup sender.clientId = none := by
      rcases assembledAfter with ⟨_, gone⟩ | ⟨pos, _⟩
      · exact gone
      · omega
    rw [last]
    exact advancesTo_completed codec sender done later emitted valid reader replay.tracked
      ctx _ count _ observed idle
      (fun cursor => chunksAt_cut sender done _ emitted above _ rfl) outcome read runs

end

variable {codec} in
/-- The first frame that was not received before advances the reader by one
frame. -/
theorem readEnvelope_next {sender : Sender} {done rest : List EmittedMessage}
    (valid : ValidEmission codec sender (done ++ rest)) {count : Nat} {reader : Reader}
    (replay : ReplayAt sender done rest count reader) {ctx : ReadContext}
    {envelope : ClientEnvelope}
    (got : (sender.emission (done ++ rest))[(sender.emission done).length + count]? =
    some envelope) (sized : (clientMessageKey envelope).isSome →
    ctx.wireSizeBytes ≤ remoteControlSegmentMaxBytes) {outcome : ReaderOutcome}
    (read : reader.readEnvelope codec ctx envelope = some outcome)
    (runs : outcome.stopped = false) :
    AdvancesTo sender (done ++ rest) done ((sender.emission done).length + count + 1) outcome := by
  rw [emission_append, getElem?_append_right (by omega), Nat.add_sub_cancel_left]
    at got
  cases rest with
  | nil => simp [emission] at got
  | cons emitted later =>
    cases shape : emitted.pieces with
    | none =>
      have notAssembling : count = 0 := by
        apply Nat.eq_zero_of_not_pos
        intro pos
        obtain ⟨_, _, pieces, same, cut, _⟩ := replay.assembling pos
        cases same
        rw [shape] at cut
        contradiction
      subst notAssembling
      have frame : envelope = sender.messageEnvelope emitted 0 := by
        simpa [emission, frames_whole shape] using got.symm
      subst frame
      exact advancesTo_whole valid replay shape read runs
    | some pieces =>
      have bound : count < pieces.length := by
        rcases Nat.eq_zero_or_pos count with zero | pos
        · rw [zero]
          exact length_pos_iff.mpr (valid.wellCut emitted (by simp) pieces shape).nonempty
        · obtain ⟨_, _, _, same, cut, bound, _⟩ := replay.assembling pos
          cases same
          cases Option.some.inj (shape.symm.trans cut)
          exact bound
      have frame : (sender.frames emitted)[count]? = some envelope := by
        rw [← got]
        refine (getElem?_append_left ?_).symm
        rwa [length_frames_cut sender shape]
      rw [frames_cut sender shape] at frame
      obtain ⟨piece, at_count, rfl⟩ := map_eq_some_iff.mp frame
      exact advancesTo_chunk valid replay (sized rfl) shape at_count read runs

/-! ## Replays -/

/-- The sender continues with the next position or rewinds; `bound` is the
position after the one received last. -/
def RewindsFrom (bound : Nat) : List Nat → Prop
  | [] => True
  | position :: rest => position ≤ bound ∧ RewindsFrom (position + 1) rest

instance (bound : Nat) (positions : List Nat) : Decidable (RewindsFrom bound positions) := by
  induction positions generalizing bound with
  | nil => exact isTrue trivial
  | cons position rest ih =>
    have : Decidable (RewindsFrom (position + 1) rest) := ih (position + 1)
    exact inferInstanceAs (Decidable (position ≤ bound ∧ RewindsFrom (position + 1) rest))

def receivedFrames (received : Nat) : List Nat → Nat
  | [] => received
  | position :: rest => receivedFrames (max received (position + 1)) rest

def isWholeInitialize (sender : Sender) (messages : List EmittedMessage) (position : Nat) : Bool :=
  (sender.emission messages)[position]?.any ClientEnvelope.isInitialize

/-- Each position is one that was received before, and then not of a whole
initialize, or the first that was not. -/
def Admissible (initializes : Nat → Bool) (received : Nat) : List Nat → Prop
  | [] => True
  | position :: rest =>
    position ≤ received ∧ (position < received → initializes position = false) ∧
      Admissible initializes (max received (position + 1)) rest

theorem admissible_of_rewinds (initializes : Nat → Bool) (past positions : List Nat)
    (bound got : Nat) (rewinds : RewindsFrom bound positions)
    (behind : bound ≤ got) (seen : ∀ position < got, position ∈ past)
    (once : ((past ++ positions).filter initializes).Nodup) :
    Admissible initializes got positions := by
  induction positions generalizing past bound got with
  | nil => trivial
  | cons position rest ih =>
    obtain ⟨next, rewindsRest⟩ := rewinds
    refine ⟨by omega, ?_, ?_⟩
    · intro old
      by_contra starts
      have repeated : position ∈ past.filter initializes :=
        mem_filter.mpr ⟨seen position old, by simpa using starts⟩
      rw [filter_append, filter_cons_of_pos (by simpa using starts)] at once
      exact (nodup_append.mp once).2.2 position repeated position List.mem_cons_self rfl
    · apply ih (past ++ [position]) (position + 1) (max got (position + 1)) rewindsRest
        (by omega)
      · intro other below
        by_cases old : other < got
        · exact mem_append_left _ (seen other old)
        · have same : other = position := by omega
          simp [same]
      · simpa using once

/-- The messages all of whose frames are among the first `received` ones. -/
def completedWithin (sender : Sender) (received : Nat) : List EmittedMessage → List EmittedMessage
  | [] => []
  | emitted :: rest =>
    if (sender.frames emitted).length ≤ received then
      emitted :: completedWithin sender (received - (sender.frames emitted).length) rest
    else []

theorem completedWithin_append (count : Nat)
    (unfinished : ∀ emitted, rest.head? = some emitted → count < (sender.frames emitted).length) :
    completedWithin sender ((sender.emission done).length + count) (done ++ rest) = done := by
  induction done with
  | nil =>
    cases rest with
    | nil => rfl
    | cons emitted later =>
      have short := unfinished emitted rfl
      have unfinishedFrames : ¬ (sender.frames emitted).length ≤
          (sender.emission []).length + count := by
        simp only [emission, flatMap_nil, length_nil]
        omega
      rw [nil_append, completedWithin, if_neg unfinishedFrames]
  | cons emitted earlier ih =>
    have size : (sender.emission (emitted :: earlier)).length =
        (sender.frames emitted).length + (sender.emission earlier).length := by
      simp [emission]
    have left : (sender.emission (emitted :: earlier)).length + count -
        (sender.frames emitted).length = (sender.emission earlier).length + count := by
      omega
    rw [cons_append, completedWithin, if_pos (by omega), left, ih]

theorem ReplayAt.unfinished {codec : SegmentCodec} {sender : Sender}
    {done rest : List EmittedMessage} {count : Nat} {reader : Reader}
    (replay : ReplayAt sender done rest count reader)
    (valid : ValidEmission codec sender (done ++ rest)) (emitted : EmittedMessage)
    (next : rest.head? = some emitted) : count < (sender.frames emitted).length := by
  obtain ⟨later, rfl⟩ := head?_eq_some_iff.mp next
  rcases Nat.eq_zero_or_pos count with zero | pos
  · rw [zero]
    cases shape : emitted.pieces with
    | none => simp [frames_whole shape]
    | some pieces =>
      rw [length_frames_cut sender shape]
      exact length_pos_iff.mpr (valid.wellCut emitted (by simp) pieces shape).nonempty
  · obtain ⟨_, _, pieces, same, cut, bound, _⟩ := replay.assembling pos
    cases same
    rwa [length_frames_cut sender cut]

variable {codec} in
theorem replayStep_advances {sender : Sender}
    {messages : List EmittedMessage} (valid : ValidEmission codec sender messages)
    {done rest : List EmittedMessage} (split : messages = done ++ rest) {count : Nat}
    {reader : Reader} (replay : ReplayAt sender done rest count reader)
    {ctx : ReadContext} {pos : Nat} (near : pos ≤ (sender.emission done).length + count)
    (plain : pos < (sender.emission done).length + count →
    isWholeInitialize sender messages pos = false)
    (sized : ∀ envelope, (sender.emission messages)[pos]? = some envelope →
    (clientMessageKey envelope).isSome → ctx.wireSizeBytes ≤ remoteControlSegmentMaxBytes)
    {after : Reader} {events : List TransportEvent}
    (ran : (replayMachine codec sender messages).step reader (ctx, pos) =
    some (after, events)) : AdvancesTo sender messages done
    (max ((sender.emission done).length + count) (pos + 1)) ⟨after, events, false⟩ := by
  obtain ⟨envelope, found, continued⟩ := bind_eq_some_iff.mp ran
  obtain ⟨outcome, read, res⟩ := bind_eq_some_iff.mp continued
  have alive : outcome.stopped = false := by
    cases stopped : outcome.stopped with
    | false => rfl
    | true => simp [stopped] at res
  have isOutcome : outcome = ⟨after, events, false⟩ := by
    obtain ⟨outcomeReader, outcomeEvents, stopped⟩ := outcome
    simp only at alive
    subst alive
    simpa using res
  rw [← isOutcome]
  subst split
  by_cases old : pos < (sender.emission done).length + count
  · have repeatedOrdinary : envelope.isInitialize = false := by
      have := plain old
      simpa [isWholeInitialize, found] using this
    obtain ⟨same, readRepeated, replayAfter⟩ :=
      readEnvelope_repeated valid replay ctx old found repeatedOrdinary
    rw [readRepeated] at read
    cases Option.some.inj read
    exact ⟨done, rest, count, rfl, by omega, replayAfter, by simp [handed]⟩
  · have isNext : pos = (sender.emission done).length + count := by omega
    subst isNext
    rw [Nat.max_eq_right (Nat.le_succ _)]
    exact readEnvelope_next valid replay found (sized envelope found) read alive

theorem replayRun_advances (sender : Sender)
    (messages : List EmittedMessage) (valid : ValidEmission codec sender messages)
    (got : List (ReadContext × Nat)) (done rest : List EmittedMessage)
    (split : messages = done ++ rest) (count : Nat) (reader : Reader)
    (replay : ReplayAt sender done rest count reader)
    (admissible : Admissible (isWholeInitialize sender messages)
    ((sender.emission done).length + count) (got.map Prod.snd))
    (sized : ∀ frame ∈ got, ∀ envelope, (sender.emission messages)[frame.2]? = some envelope →
    (clientMessageKey envelope).isSome → frame.1.wireSizeBytes ≤ remoteControlSegmentMaxBytes)
    (final : Reader) (events : List TransportEvent)
    (run : (replayMachine codec sender messages).run reader got = some (final, events)) :
    AdvancesTo sender messages done
    (receivedFrames ((sender.emission done).length + count) (got.map Prod.snd))
    ⟨final, events, false⟩ := by
  induction got generalizing done rest count reader events with
  | nil =>
    cases Option.some.inj run
    exact ⟨done, rest, count, split, rfl, replay, by simp [handed]⟩
  | cons frame later ih =>
    obtain ⟨mid, first, second, ran, laterRun, rfl⟩ :=
      Machine.run_cons_inv _ reader final frame later events run
    obtain ⟨near, plain, admissibleLater⟩ := admissible
    obtain ⟨doneNext, restNext, countNext, splitNext, frameCount, replayNext, handover⟩ :=
      replayStep_advances valid split replay near plain (sized frame List.mem_cons_self) ran
    rw [← frameCount] at admissibleLater
    obtain ⟨doneLast, restLast, countLast, splitLast, lastCount, replayLast, lastHandover⟩ :=
      ih doneNext restNext splitNext countNext mid replayNext admissibleLater
        (fun other mem => sized other (mem_cons_of_mem _ mem)) second laterRun
    refine ⟨doneLast, restLast, countLast, splitLast, ?_, replayLast, ?_⟩
    · rw [lastCount, map_cons, receivedFrames, ← frameCount]
    · rw [handed_append, ← append_assoc, handover]
      exact lastHandover

theorem le_receivedFrames (got : Nat) (positions : List Nat) :
    got ≤ receivedFrames got positions := by
  induction positions generalizing got with
  | nil => exact Nat.le_refl got
  | cons pos rest ih =>
    exact Nat.le_trans (Nat.le_max_left _ _) (ih (max got (pos + 1)))

theorem lt_receivedFrames (got : Nat) (positions : List Nat) (pos : Nat)
    (mem : pos ∈ positions) : pos < receivedFrames got positions := by
  induction positions generalizing got with
  | nil => contradiction
  | cons head rest ih =>
    rcases mem_cons.mp mem with rfl | mem
    · have below := le_receivedFrames (max got (pos + 1)) rest
      rw [receivedFrames]
      omega
    · exact ih (max got (head + 1)) mem

theorem expectedHandover_messages (opened : Nat) (messages : List EmittedMessage) :
    (expectedHandover opened messages).map Prod.snd =
    (messages.filter fun emitted => !emitted.isInitialize).map EmittedMessage.message := by
  induction messages generalizing opened with
  | nil => rfl
  | cons emitted rest ih =>
    by_cases starts : emitted.isInitialize
    · simp [expectedHandover, starts, ih]
    · simp [expectedHandover, starts, ih]

/-- The stream starts with an initialize and no whole initialize arrives twice.
Whatever has been replayed so far, the connections were handed the messages
whose frames have all arrived, each once and in order, and on the connection
that the preceding initialize opened.  When every frame has arrived these are
all messages. -/
theorem replayed_messages_delivered_once (codec : SegmentCodec) (sender : Sender)
    (messages : List EmittedMessage) (valid : ValidEmission codec sender messages)
    (received : List (ReadContext × Nat))
    (rewinds : RewindsFrom 0 (received.map Prod.snd))
    (once : ((received.map Prod.snd).filter (isWholeInitialize sender messages)).Nodup)
    (sized : ∀ frame ∈ received, ∀ envelope,
      (sender.emission messages)[frame.2]? = some envelope →
        (WebsocketState.clientMessageKey envelope).isSome →
          frame.1.wireSizeBytes ≤ remoteControlSegmentMaxBytes)
    (final : Reader) (events : List TransportEvent)
    (run : (replayMachine codec sender messages).run ⟨.new, .new⟩ received =
      some (final, events)) :
    handed events = expectedHandover 0
        (completedWithin sender (receivedFrames 0 (received.map Prod.snd)) messages) ∧
      ((∀ position < (sender.emission messages).length, position ∈ received.map Prod.snd) →
        (handed events).map Prod.snd =
          (messages.filter fun emitted => !emitted.isInitialize).map
            EmittedMessage.message) := by
  have admissible := admissible_of_rewinds (isWholeInitialize sender messages) []
    (received.map Prod.snd) 0 0 rewinds (Nat.le_refl 0) (by simp) (by simpa using once)
  obtain ⟨done, rest, count, split, frameCount, replay, handover⟩ :=
    replayRun_advances codec sender messages valid received [] messages rfl 0 ⟨.new, .new⟩
      (replayAt_new sender messages) admissible sized final events run
  have startsEmpty : (sender.emission []).length + 0 = 0 := rfl
  rw [startsEmpty] at frameCount
  have handedDone : handed events = expectedHandover 0 done := handover
  subst split
  have unfinished := replay.unfinished valid
  refine ⟨?_, ?_⟩
  · rw [handedDone, ← frameCount, completedWithin_append sender done rest count unfinished]
  · intro all
    have nothingLeft : rest = [] := by
      cases rest with
      | nil => rfl
      | cons emitted later =>
        have short := unfinished emitted rfl
        have size : (sender.emission (done ++ emitted :: later)).length =
            (sender.emission done).length + (sender.frames emitted).length +
              (sender.emission later).length := by
          simp [emission]
          omega
        have last := lt_receivedFrames 0 _ _
          (all ((sender.emission done).length + count) (by omega))
        omega
    rw [handedDone, nothingLeft, append_nil, expectedHandover_messages]

/-! ## A short stream -/

def samplePieces : List (List UInt8) :=
  [[123, 34, 109, 101, 116, 104, 111], [100, 34, 58, 34, 97, 34, 125]]

def sampleSender : Sender where
  clientId := ⟨"client"⟩
  streamId := ⟨"stream"⟩
  encode piece :=
    if piece = [123, 34, 109, 101, 116, 104, 111] then "eyJtZXRobw==" else "ZCI6ImEifQ=="
  cursor := fun _ _ => none

def sampleInitialize : EmittedMessage :=
  ⟨0, .request (.integer 1) "initialize" none, none⟩

def sampleContext : ReadContext := ⟨0, ⟨"fresh"⟩, fun _ => true, 0⟩

theorem samplePieces_wellCut : WellCut sampleCodec sampleSender
      ⟨1, .notification "a" none, some samplePieces⟩ samplePieces where
  nonempty := by decide
  count := by decide
  sizePositive := by decide
  sizeBounded := by decide
  encoded := by decide
  estimated := by decide
  decoded := by
    intro piece mem available enough
    simp only [samplePieces, mem_cons, not_mem_nil, or_false] at mem
    rcases mem with rfl | rfl
    · have bound : 7 ≤ available := enough
      simp [sampleCodec, sampleSender, bound]
    · have bound : 7 ≤ available := enough
      simp [sampleCodec, sampleSender, bound]
  parsed := by decide

def sampleMessages : List EmittedMessage :=
  [sampleInitialize, ⟨1, .notification "a" none, some samplePieces⟩,
    ⟨2, .notification "b" none, none⟩]

theorem sampleMessages_valid : ValidEmission sampleCodec sampleSender sampleMessages where
  named := by decide
  increasing := by decide
  wellCut := by
    intro emitted mem pieces cut
    simp only [sampleMessages, mem_cons, not_mem_nil, or_false] at mem
    rcases mem with rfl | rfl | rfl
    · contradiction
    · cases Option.some.inj cut
      exact samplePieces_wellCut
    · contradiction
  opens := by
    intro emitted first
    cases Option.some.inj first
    decide

def sampleReplay (positions : List Nat) : List (ReadContext × Nat) :=
  positions.map fun position => (sampleContext, position)

theorem rewound_chunks_delivered_once :
    ∃ final events,
      (replayMachine ClientSegmentReassembler.sampleCodec sampleSender sampleMessages).run
          ⟨.new, .new⟩ (sampleReplay [0, 1, 1, 2, 3, 1, 2, 3]) = some (final, events) ∧
        (handed events).map Prod.snd = [.notification "a" none, .notification "b" none] := by
  have sized : ∀ frame ∈ sampleReplay [0, 1, 1, 2, 3, 1, 2, 3], ∀ envelope,
      (sampleSender.emission sampleMessages)[frame.2]? = some envelope →
        (clientMessageKey envelope).isSome →
        frame.1.wireSizeBytes ≤ remoteControlSegmentMaxBytes := by
    intro frame mem envelope _ _
    obtain ⟨position, _, rfl⟩ := mem_map.mp mem
    exact Nat.zero_le _
  refine ⟨_, _, rfl, ?_⟩
  exact (replayed_messages_delivered_once sampleCodec sampleSender
    sampleMessages sampleMessages_valid (sampleReplay [0, 1, 1, 2, 3, 1, 2, 3])
    (by decide) (by decide) sized _ _ rfl).2 (by decide)

/-- A rewind to the whole initialize opens a second connection, and the whole
message after it is handed on again. -/
theorem repeated_initialize_repeats_message :
    ∃ messages final events,
      ValidEmission ClientSegmentReassembler.sampleCodec sampleSender messages ∧
      RewindsFrom 0 [0, 1, 0, 1] ∧
      (replayMachine ClientSegmentReassembler.sampleCodec sampleSender messages).run
          ⟨.new, .new⟩ (sampleReplay [0, 1, 0, 1]) = some (final, events) ∧
      messages.map EmittedMessage.message =
        [.request (.integer 1) "initialize" none, .notification "b" none] ∧
      handed events = [(0, .notification "b" none), (1, .notification "b" none)] := by
  refine ⟨[sampleInitialize, ⟨2, .notification "b" none, none⟩], _, _, ?_, by decide, rfl, rfl,
    by decide⟩
  exact
    { named := by decide
      increasing := by decide
      wellCut := by
        intro emitted mem pieces cut
        simp only [mem_cons, not_mem_nil, or_false] at mem
        rcases mem with rfl | rfl
        · contradiction
        · contradiction
      opens := by
        intro emitted first
        cases Option.some.inj first
        decide }

end CodexFormal.RemoteControl
