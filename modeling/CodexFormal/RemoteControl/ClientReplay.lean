import CodexFormal.RemoteControl.ConnectionIdentity
import CodexFormal.RemoteControl.SegmentIsolation
import CodexFormal.RemoteControl.Websocket

/-!
# A replayed stream of client messages

A sender emits numbered messages on one stream, each whole or cut into chunks,
and may at any time rewind to an earlier frame and continue from there.  The
reader recognises repeated frames in three places: by the last completed chunk
message, by the assembly in progress, and by the last sequence id the tracker
has delivered.  The lemmas of this module say what the reader does with a frame
it has seen before and with the first frame it has not seen.
-/

set_option autoImplicit false

namespace CodexFormal.RemoteControl

open Foundation Option List ClientSegmentReassembler ClientTracker WebsocketState

structure EmittedMessage where
  seqId : Nat
  message : JSONRPCMessage
  /-- The chunks the message is cut into; `none` for a whole message. -/
  pieces : Option (List (List UInt8))
deriving DecidableEq, Repr

variable (emitted : EmittedMessage)

def EmittedMessage.isInitialize : Bool :=
  remoteControlMessageStartsConnection emitted.message

structure Sender where
  clientId : ClientId
  streamId : StreamId
  encode : List UInt8 → String
  cursor : Nat → Nat → Option String

namespace Sender

variable (sender : Sender)

def key : ClientKey := (sender.clientId, sender.streamId)

def envelope (seqId segmentId : Nat) (event : ClientEvent) : ClientEnvelope :=
  ⟨event, sender.clientId, some sender.streamId, some seqId, sender.cursor seqId segmentId⟩

def chunkEnvelope (seqId : Nat) (pieces : List (List UInt8))
    (piece : List UInt8) (segmentId : Nat) : ClientEnvelope :=
  sender.envelope seqId segmentId
    (.clientMessageChunk segmentId pieces.length pieces.flatten.length (sender.encode piece))

def frames (emitted : EmittedMessage) : List ClientEnvelope :=
  match emitted.pieces with
  | none => [sender.envelope emitted.seqId 0 (.clientMessage emitted.message)]
  | some pieces =>
    pieces.zipIdx.map fun piece =>
      sender.chunkEnvelope emitted.seqId pieces piece.1 piece.2

def emission (messages : List EmittedMessage) : List ClientEnvelope :=
  messages.flatMap sender.frames

end Sender

/-- The counts and sizes the reader checks, and third-party code that decodes
each chunk into any slice it fits in and parses the joined bytes. -/
structure WellCut (codec : SegmentCodec) (sender : Sender) (emitted : EmittedMessage)
    (pieces : List (List UInt8)) : Prop where
  nonempty : pieces ≠ []
  count : pieces.length ≤ remoteControlSegmentCountMax
  sizePositive : 0 < pieces.flatten.length
  sizeBounded : pieces.flatten.length ≤ remoteControlReassembledMaxBytes
  encoded : ∀ piece ∈ pieces, sender.encode piece ≠ ""
  estimated : ∀ piece ∈ pieces,
    piece.length ≤ codec.decodedLenEstimate (sender.encode piece).utf8ByteSize
  decoded : ∀ piece ∈ pieces, ∀ available, piece.length ≤ available →
    codec.decodeSlice (sender.encode piece) available = .ok piece
  parsed : codec.fromSlice pieces.flatten = some emitted.message

structure ValidEmission (codec : SegmentCodec) (sender : Sender)
    (messages : List EmittedMessage) : Prop where
  named : sender.streamId.text ≠ ""
  increasing : messages.Pairwise fun earlier later => earlier.seqId < later.seqId
  wellCut : ∀ emitted ∈ messages, ∀ pieces, emitted.pieces = some pieces →
    WellCut codec sender emitted pieces
  opens : ∀ emitted, messages.head? = some emitted → emitted.isInitialize = true

/-- The reader with the websocket message at a position of the emission as its
input; it refuses to go on after `handle_message` has failed. -/
def replayMachine (codec : SegmentCodec) (sender : Sender)
    (messages : List EmittedMessage) : Machine Reader (ReadContext × Nat) TransportEvent where
  step reader received :=
    (sender.emission messages)[received.2]?.bind fun envelope =>
      (reader.readEnvelope codec received.1 envelope).bind fun outcome =>
        if outcome.stopped then none else some (outcome.reader, outcome.events)

/-- The messages other than an initialize, with their connections. -/
def handed (events : List TransportEvent) : List (ConnectionId × JSONRPCMessage) :=
  events.filterMap fun
    | .incomingMessage connectionId message =>
      if remoteControlMessageStartsConnection message then none
      else some (connectionId, message)
    | _ => none

theorem handed_append (earlier later : List TransportEvent) :
    handed (earlier ++ later) = handed earlier ++ handed later :=
  filterMap_append

/-- Each message once and in order, on the connection that the last initialize
before it has opened; `opened` connections were opened before. -/
def expectedHandover (opened : Nat) : List EmittedMessage → List (ConnectionId × JSONRPCMessage)
  | [] => []
  | emitted :: rest =>
    if emitted.isInitialize then expectedHandover (opened + 1) rest
    else (opened - 1, emitted.message) :: expectedHandover opened rest

def initializeCount (messages : List EmittedMessage) : Nat :=
  messages.countP EmittedMessage.isInitialize

theorem expectedHandover_append (opened : Nat) (earlier later : List EmittedMessage) :
    expectedHandover opened (earlier ++ later) = expectedHandover opened earlier ++
    expectedHandover (opened + initializeCount earlier) later := by
  induction earlier generalizing opened with
  | nil => rfl
  | cons emitted rest ih =>
    by_cases starts : emitted.isInitialize
    · have count : initializeCount (emitted :: rest) = initializeCount rest + 1 := by
        simp [initializeCount, starts]
      have shift : opened + 1 + initializeCount rest =
        opened + initializeCount (emitted :: rest) := by omega
      simp only [cons_append, expectedHandover, if_pos starts, ih, shift]
    · have count : initializeCount (emitted :: rest) = initializeCount rest := by
        simp [initializeCount, starts]
      simp [expectedHandover, starts, ih, count]

/-- The tracker after the messages `done`: the client of the stream is
registered with the newest connection and the last sequence id. -/
structure TrackerAt (key : ClientKey) (done : List EmittedMessage)
    (tracker : ClientTracker) : Prop where
  opened : tracker.nextConnectionId = initializeCount done
  fresh : done = [] → tracker.clients.lookup key = none
  registered : ∀ last, done.getLast? = some last →
    ∃ client, tracker.clients.lookup key = some client ∧
      client.connectionId + 1 = tracker.nextConnectionId ∧
        client.lastInboundSeqId = some last.seqId

def Sender.messageEnvelope (sender : Sender) (emitted : EmittedMessage)
    (segmentId : Nat) : ClientEnvelope :=
  sender.envelope emitted.seqId segmentId (.clientMessage emitted.message)

variable (sender : Sender)

open Sender

theorem handleMessage_eq (named : sender.streamId.text ≠ "")
    (tracker : ClientTracker) (ctx : ReadContext) (emitted : EmittedMessage) (segmentId : Nat) :
    tracker.handleMessage ctx.now ctx.fresh ctx.accepts (sender.messageEnvelope emitted segmentId) =
    tracker.handleClientMessage ctx.now ctx.accepts sender.key
    (sender.messageEnvelope emitted segmentId) emitted.message := by
  simp [handleMessage, resolveStreamId, messageEnvelope, envelope, key, named]

variable (done : List EmittedMessage)

theorem le_getLast_seqId (emitted last : EmittedMessage)
    (rising : done.Pairwise fun earlier later => earlier.seqId < later.seqId)
    (mem : emitted ∈ done) (isLast : done.getLast? = some last) : emitted.seqId ≤ last.seqId := by
  obtain ⟨earlier, rfl⟩ := getLast?_eq_some_iff.mp isLast
  rcases mem_append.mp mem with old | newest
  · exact Nat.le_of_lt ((pairwise_append.mp rising).2.2 emitted old last mem_cons_self)
  · rw [mem_singleton.mp newest]

theorem handleMessage_repeated (named : sender.streamId.text ≠ "")
    (done : List EmittedMessage) (tracker : ClientTracker)
    (tracked : TrackerAt sender.key done tracker)
    (rising : done.Pairwise fun earlier later => earlier.seqId < later.seqId)
    (ctx : ReadContext) (emitted : EmittedMessage) (mem : emitted ∈ done)
    (plain : emitted.isInitialize = false) (segmentId : Nat) :
    tracker.handleMessage ctx.now ctx.fresh ctx.accepts
    (sender.messageEnvelope emitted segmentId) = ⟨tracker, [], [], false⟩ := by
  obtain ⟨last, isLast⟩ : ∃ last, done.getLast? = some last :=
    ne_none_iff_exists'.mp fun none =>
      ne_nil_of_mem mem (getLast?_eq_none_iff.mp none)
  obtain ⟨client, found, _, inbound⟩ := tracked.registered last isLast
  have below : emitted.seqId ≤ last.seqId :=
    le_getLast_seqId done emitted last rising mem isLast
  have starts : (sender.messageEnvelope emitted segmentId).isInitialize = false := plain
  have duplicate : tracker.isDuplicate sender.key
      (sender.messageEnvelope emitted segmentId) = true := by
    simp only [isDuplicate, found, starts]
    simp [messageEnvelope, envelope, inbound, below]
  rw [handleMessage_eq sender named]
  simp [handleClientMessage, duplicate]

theorem openConnection_succeeds
    (tracker : ClientTracker) (opened : tracker.nextConnectionId = initializeCount done)
    (ctx : ReadContext) (emitted : EmittedMessage) (starts : emitted.isInitialize = true)
    (runs : (tracker.openConnection ctx.now ctx.accepts sender.key false
    (some emitted.seqId) emitted.message).stopped = false) :
    TrackerAt sender.key (done ++ [emitted]) (tracker.openConnection ctx.now
    ctx.accepts sender.key false (some emitted.seqId) emitted.message).tracker ∧
    handed (tracker.openConnection ctx.now ctx.accepts sender.key false
    (some emitted.seqId) emitted.message).events = [] := by
  have message : remoteControlMessageStartsConnection emitted.message = true := starts
  have count : initializeCount (done ++ [emitted]) = initializeCount done + 1 := by
    simp [initializeCount, starts]
  simp only [openConnection] at runs ⊢
  split at runs
  next acceptsOpened =>
    split at runs
    next acceptsIncoming =>
      simp only [acceptsOpened, acceptsIncoming, if_true]
      refine ⟨⟨?_, ?_, ?_⟩, ?_⟩
      · simp [recordInboundMessageDelivery, register, count, opened]
      · simp
      · intro last isLast
        rw [getLast?_concat] at isLast
        cases some.inj isLast
        simp [recordInboundMessageDelivery, register, FiniteMap.lookup_modify_eq_ite]
      · simp [handed, message]
    · split at runs <;> contradiction
  · contradiction

theorem forwardMessage_succeeds
    (tracker : ClientTracker) (opened : tracker.nextConnectionId = initializeCount done)
    (client : ClientState) (newest : client.connectionId + 1 = tracker.nextConnectionId)
    (ctx : ReadContext) (emitted : EmittedMessage) (plain : emitted.isInitialize = false)
    (runs : (tracker.forwardMessage ctx.now ctx.accepts sender.key client
    (some emitted.seqId) emitted.message).stopped = false) :
    TrackerAt sender.key (done ++ [emitted]) (tracker.forwardMessage ctx.now
    ctx.accepts sender.key client (some emitted.seqId) emitted.message).tracker ∧
    handed (tracker.forwardMessage ctx.now ctx.accepts sender.key client
    (some emitted.seqId) emitted.message).events =
    [(initializeCount done - 1, emitted.message)] := by
  have message : remoteControlMessageStartsConnection emitted.message = false := plain
  have count : initializeCount (done ++ [emitted]) = initializeCount done := by
    simp [initializeCount, plain]
  simp only [forwardMessage] at runs ⊢
  split at runs
  next isOk =>
    simp only [isOk, if_true]
    refine ⟨⟨?_, ?_, ?_⟩, ?_⟩
    · simp [recordInboundMessageDelivery, count, opened]
    · simp
    · intro last isLast
      rw [getLast?_concat] at isLast
      cases some.inj isLast
      simpa [recordInboundMessageDelivery, FiniteMap.lookup_modify_eq_ite] using newest
    · have connection : client.connectionId = initializeCount done - 1 :=
        Nat.eq_sub_of_add_eq (newest.trans opened)
      simp [handed, message, connection]
  · contradiction

/-- An initialize closes whatever was registered, so that a connection can be
opened. -/
theorem closeBeforeReopen_initialize (tracker : ClientTracker)
    (accepts : TransportEvent → Bool) (key : ClientKey) (envelope : ClientEnvelope)
    (starts : envelope.isInitialize = true) :
    let closed := tracker.closeBeforeReopen accepts key envelope
    closed.tracker.clients.lookup key = none ∧
      closed.tracker.nextConnectionId = tracker.nextConnectionId ∧
        handed closed.events = [] := by
  intro closed
  simp only [closed, closeBeforeReopen, starts, Bool.true_and]
  split
  · refine ⟨?_, ?_, ?_⟩
    · simp [closeClient_lookup]
    · exact tracker.closeClient_nextConnectionId accepts key
    · rcases tracker.closeClient_cases accepts key with
        ⟨_, res⟩ | ⟨client, gone, _, _, _, res⟩
      · rw [res]
        rfl
      · rw [res]
        rfl
  next unregistered =>
    exact ⟨by simpa using unregistered, rfl, rfl⟩

theorem handleMessage_next (named : sender.streamId.text ≠ "")
    (done : List EmittedMessage) (tracker : ClientTracker)
    (tracked : TrackerAt sender.key done tracker) (ctx : ReadContext)
    (emitted : EmittedMessage) (segmentId : Nat)
    (above : ∀ earlier ∈ done, earlier.seqId < emitted.seqId)
    (opens : done = [] → emitted.isInitialize = true)
    (runs : (tracker.handleMessage ctx.now ctx.fresh ctx.accepts
      (sender.messageEnvelope emitted segmentId)).stopped = false) :
    let outcome := tracker.handleMessage ctx.now ctx.fresh ctx.accepts
      (sender.messageEnvelope emitted segmentId)
    TrackerAt sender.key (done ++ [emitted]) outcome.tracker ∧
      handed outcome.events = expectedHandover (initializeCount done) [emitted] := by
  intro outcome
  have sameStart : (sender.messageEnvelope emitted segmentId).isInitialize =
    emitted.isInitialize := rfl
  have seqId : (sender.messageEnvelope emitted segmentId).seqId = some emitted.seqId := rfl
  have stream : (sender.messageEnvelope emitted segmentId).streamId.isNone = false := rfl
  have fresh : tracker.isDuplicate sender.key
      (sender.messageEnvelope emitted segmentId) = false := by
    cases isLast : done.getLast? with
    | none =>
      have gone := tracked.fresh (getLast?_eq_none_iff.mp isLast)
      simp [isDuplicate, seqId, gone]
    | some last =>
      obtain ⟨client, found, _, inbound⟩ := tracked.registered last isLast
      have later := above last (mem_of_getLast? isLast)
      simp [isDuplicate, seqId, found, inbound, later]
  simp only [outcome]
  rw [handleMessage_eq sender named] at runs ⊢
  simp only [handleClientMessage, fresh, Bool.false_eq_true, if_false,
    sameStart, seqId, stream] at runs ⊢
  cases starts : emitted.isInitialize with
  | true =>
    simp only [expectedHandover, starts, if_true]
    obtain ⟨gone, sameNext, closedNothing⟩ := closeBeforeReopen_initialize tracker
      ctx.accepts sender.key (sender.messageEnvelope emitted segmentId) starts
    split at runs
    next stopped =>
      rw [stopped] at runs
      contradiction
    next alive =>
      rw [if_neg alive]
      simp only [gone] at runs ⊢
      obtain ⟨opened, handedNothing⟩ := openConnection_succeeds sender done _
        (sameNext.trans tracked.opened) ctx emitted starts runs
      exact ⟨opened, by rw [handed_append, closedNothing, handedNothing]; rfl⟩
  | false =>
    obtain ⟨last, isLast⟩ : ∃ last, done.getLast? = some last := by
      apply ne_none_iff_exists'.mp
      intro none
      have := opens (getLast?_eq_none_iff.mp none)
      rw [starts] at this
      contradiction
    obtain ⟨client, found, newest, _⟩ := tracked.registered last isLast
    have kept : tracker.closeBeforeReopen ctx.accepts sender.key
        (sender.messageEnvelope emitted segmentId) = ⟨tracker, [], [], false⟩ := by
      simp [closeBeforeReopen, sameStart, starts]
    simp only [kept, found, Bool.false_eq_true, if_false, nil_append] at runs ⊢
    obtain ⟨tracked, forwarded⟩ := forwardMessage_succeeds sender done tracker
      tracked.opened client newest ctx emitted starts runs
    refine ⟨tracked, ?_⟩
    simpa [expectedHandover, starts] using forwarded

/-- The cursor of completed chunk messages covers exactly the cut messages of
`done`. -/
structure ChunksAt (sender : Sender) (done : List EmittedMessage)
    (websocket : WebsocketState) : Prop where
  completed : ∀ emitted ∈ done, emitted.pieces ≠ none →
    ∃ last, websocket.lastCompletedClientChunkSeqIdByStream.lookup
      (sender.clientId, some sender.streamId) = some last ∧ emitted.seqId ≤ last
  bounded : ∀ last, websocket.lastCompletedClientChunkSeqIdByStream.lookup
      (sender.clientId, some sender.streamId) = some last →
    ∃ emitted ∈ done, emitted.seqId = last

def metadataOf (seqId : Nat) (pieces : List (List UInt8)) : ClientSegmentMetadata :=
  ⟨seqId, pieces.length, pieces.flatten.length⟩

/-- The first `count` chunks of a message have been assembled. -/
def AssemblyAt (sender : Sender) (seqId : Nat) (pieces : List (List UInt8))
    (count : Nat) (websocket : WebsocketState) : Prop :=
  (count = 0 ∧
      websocket.clientSegmentReassembler.assemblies.lookup sender.clientId = none) ∨
    (0 < count ∧ ∃ seenAt,
      websocket.clientSegmentReassembler.assemblies.lookup sender.clientId =
        some ⟨sender.streamId, metadataOf seqId pieces, (pieces.take count).flatten, count,
          seenAt⟩)

theorem observeClientMessage_completed
    (socket : WebsocketState) (chunks : ChunksAt sender done socket)
    (codec : SegmentCodec) (ctx : ReadContext) (emitted : EmittedMessage)
    (mem : emitted ∈ done) (pieces : List (List UInt8))
    (cut : emitted.pieces = some pieces) (piece : List UInt8) (segmentId : Nat) :
    socket.observeClientMessage codec ctx.now
    (sender.chunkEnvelope emitted.seqId pieces piece segmentId) ctx.wireSizeBytes =
    (socket, .dropped) := by
  obtain ⟨last, found, below⟩ := chunks.completed emitted mem (by simp [cut])
  have completed : socket.alreadyCompleted
      (sender.chunkEnvelope emitted.seqId pieces piece segmentId) = true := by
    simp [alreadyCompleted, clientMessageKey, chunkEnvelope, envelope, found, below]
  simp [observeClientMessage, completed]

variable {sender} in
theorem observeClientMessage_assembled {socket : WebsocketState}
    {seqId : Nat} {pieces : List (List UInt8)} {count : Nat}
    (built : AssemblyAt sender seqId pieces count socket) (codec : SegmentCodec)
    (ctx : ReadContext) (piece : List UInt8) {segmentId : Nat} (below : segmentId < count) :
    socket.observeClientMessage codec ctx.now
    (sender.chunkEnvelope seqId pieces piece segmentId) ctx.wireSizeBytes = (socket, .dropped) := by
  rcases built with ⟨zero, _⟩ | ⟨_, seenAt, found⟩
  · omega
  · have ignored : socket.ignoresChunk
        (sender.chunkEnvelope seqId pieces piece segmentId) = true := by
      simp [ignoresChunk, chunkEnvelope, envelope, shouldIgnoreChunk, found, metadataOf, below]
    unfold observeClientMessage
    rw [ignored]
    split
    · rfl
    · rfl

variable (pieces : List (List UInt8))

theorem take_succ_flatten (count : Nat) (piece : List UInt8)
    (at_count : pieces[count]? = some piece) :
    (pieces.take (count + 1)).flatten = (pieces.take count).flatten ++ piece := by
  rw [take_add_one, at_count]
  simp

theorem length_take_flatten_le (count : Nat) :
    (pieces.take count).flatten.length ≤ pieces.flatten.length := by
  have split : pieces.flatten = (pieces.take count).flatten ++ (pieces.drop count).flatten := by
    rw [← flatten_append, take_append_drop]
  rw [split, length_append]
  omega

variable (codec : SegmentCodec)

theorem updateAssembly_next (sender : Sender)
    (emitted : EmittedMessage) (pieces : List (List UInt8))
    (wellCut : WellCut codec sender emitted pieces) (now seenAt count : Nat)
    (piece : List UInt8) (at_count : pieces[count]? = some piece) :
    updateAssembly codec now (metadataOf emitted.seqId pieces) count (sender.encode piece)
    ⟨sender.streamId, metadataOf emitted.seqId pieces, (pieces.take count).flatten,
    count, seenAt⟩ = (⟨sender.streamId, metadataOf emitted.seqId pieces,
    (pieces.take (count + 1)).flatten, count + 1, now⟩,
    if count + 1 < pieces.length then .pending else .complete emitted.message) := by
  have mem : piece ∈ pieces := List.mem_of_getElem? at_count
  have joined := take_succ_flatten pieces count piece at_count
  have fits : (pieces.take count).flatten.length + piece.length ≤ pieces.flatten.length := by
    have bound := length_take_flatten_le pieces (count + 1)
    rw [joined, length_append] at bound
    exact bound
  have estimate := wellCut.estimated piece mem
  have decoded : codec.decodeSlice (sender.encode piece) (min (pieces.flatten.length)
          ((pieces.take count).flatten.length +
            codec.decodedLenEstimate (sender.encode piece).utf8ByteSize) -
        (pieces.take count).flatten.length) = .ok piece := by
    apply wellCut.decoded piece mem
    omega
  simp only [updateAssembly, metadataOf, Nat.lt_irrefl, if_false, ne_eq, not_true_eq_false,
    decoded, ← joined]
  by_cases more : count + 1 < pieces.length
  · simp [more]
  · have all : pieces.take (count + 1) = pieces := take_of_length_le (by omega)
    simp [more, all, wellCut.parsed]

section

variable {sender : Sender} {emitted : EmittedMessage} {pieces : List (List UInt8)}
  (wellCut : WellCut codec sender emitted pieces)

include wellCut

variable {codec} in
theorem chunkIsValid_of_wellCut {piece : List UInt8} {count : Nat}
    (at_count : pieces[count]? = some piece) :
    chunkIsValid count pieces.length pieces.flatten.length (sender.encode piece) = true := by
  have mem : piece ∈ pieces := List.mem_of_getElem? at_count
  have bound : count < pieces.length := (List.getElem?_eq_some_iff.mp at_count).1
  have nonempty : pieces ≠ [] := wellCut.nonempty
  have few := wellCut.count
  have pos := wellCut.sizePositive
  have small := wellCut.sizeBounded
  simp only [chunkIsValid, Bool.not_eq_true', Bool.or_eq_false_iff,
    beq_eq_false_iff_ne, decide_eq_false_iff_not]
  refine ⟨⟨⟨⟨⟨?_, ?_⟩, ?_⟩, ?_⟩, ?_⟩, wellCut.encoded piece mem⟩
  all_goals omega

variable {codec} in
theorem observeChunk_next {socket : WebsocketState}
    (now count : Nat) (built : AssemblyAt sender emitted.seqId pieces count socket)
    {piece : List UInt8} (at_count : pieces[count]? = some piece) :
    ∃ after, AssemblyAt sender emitted.seqId pieces
          (if count + 1 < pieces.length then count + 1 else 0)
          { socket with clientSegmentReassembler := after } ∧
      socket.clientSegmentReassembler.observe codec now
          (sender.chunkEnvelope emitted.seqId pieces piece count) =
        (after, if count + 1 < pieces.length then .pending
          else .forward (sender.messageEnvelope emitted count)) := by
  have client : (sender.chunkEnvelope emitted.seqId pieces piece count).clientId =
    sender.clientId := rfl
  have valid := chunkIsValid_of_wellCut wellCut at_count
  have notIgnored : socket.clientSegmentReassembler.shouldIgnoreChunk
      (sender.chunkEnvelope emitted.seqId pieces piece count).clientId
      sender.streamId emitted.seqId count = false := by
    rw [client]
    rcases built with ⟨_, gone⟩ | ⟨_, seenAt, found⟩
    · simp [shouldIgnoreChunk, gone]
    · simp [shouldIgnoreChunk, found, metadataOf]
  obtain ⟨seenAt, ready⟩ : ∃ seenAt, (socket.clientSegmentReassembler.prepareAssembly now
        (sender.chunkEnvelope emitted.seqId pieces piece count).clientId sender.streamId
        (metadataOf emitted.seqId pieces)).assemblies.lookup
          (sender.chunkEnvelope emitted.seqId pieces piece count).clientId =
        some ⟨sender.streamId, metadataOf emitted.seqId pieces,
          (pieces.take count).flatten, count, seenAt⟩ := by
    rw [prepareAssembly_lookup_self, client]
    rcases built with ⟨rfl, gone⟩ | ⟨_, seenAt, found⟩
    · exact ⟨now, by simp [gone, preparedAssembly]⟩
    · exact ⟨seenAt, by simp [found, preparedAssembly]⟩
  have update := updateAssembly_next codec sender emitted pieces wellCut now seenAt count
    piece at_count
  have observed : socket.clientSegmentReassembler.observe codec now
    (sender.chunkEnvelope emitted.seqId pieces piece count) =
    socket.clientSegmentReassembler.observeChunk codec now
    (sender.chunkEnvelope emitted.seqId pieces piece count) sender.streamId
    (metadataOf emitted.seqId pieces) count (sender.encode piece) := rfl
  have seqId : (metadataOf emitted.seqId pieces).seqId = emitted.seqId := rfl
  have segmentCount : (metadataOf emitted.seqId pieces).segmentCount = pieces.length := rfl
  have size : (metadataOf emitted.seqId pieces).messageSizeBytes = pieces.flatten.length := rfl
  rw [observed]
  simp only [observeChunk, seqId, segmentCount, size,
    notIgnored, valid, ready, update, Bool.not_true, Bool.false_eq_true, if_false]
  by_cases more : count + 1 < pieces.length
  · simp only [more, if_true]
    exact ⟨_, .inr ⟨Nat.succ_pos count, now, AList.lookup_insert _⟩, rfl⟩
  · simp only [more, if_false]
    refine ⟨_, .inl ⟨rfl, ?_⟩, rfl⟩
    simp [removeAssembly_lookup, client]

end

theorem observeClientMessage_next (sender : Sender)
    (done : List EmittedMessage) (emitted : EmittedMessage) (pieces : List (List UInt8))
    (wellCut : WellCut codec sender emitted pieces) (socket : WebsocketState)
    (chunks : ChunksAt sender done socket)
    (above : ∀ earlier ∈ done, earlier.seqId < emitted.seqId) (ctx : ReadContext)
    (sized : ctx.wireSizeBytes ≤ remoteControlSegmentMaxBytes) (count : Nat)
    (built : AssemblyAt sender emitted.seqId pieces count socket)
    (piece : List UInt8) (at_count : pieces[count]? = some piece) :
    ∃ after, AssemblyAt sender emitted.seqId pieces
          (if count + 1 < pieces.length then count + 1 else 0)
          { socket with clientSegmentReassembler := after } ∧
      socket.observeClientMessage codec ctx.now
          (sender.chunkEnvelope emitted.seqId pieces piece count) ctx.wireSizeBytes =
        ({ socket with clientSegmentReassembler := after },
          if count + 1 < pieces.length then .pending
          else .forward (sender.messageEnvelope emitted count)) := by
  have notCompleted : socket.alreadyCompleted
      (sender.chunkEnvelope emitted.seqId pieces piece count) = false := by
    cases found : socket.lastCompletedClientChunkSeqIdByStream.lookup
      (sender.clientId, some sender.streamId) with
    | none =>
      simp [alreadyCompleted, clientMessageKey, chunkEnvelope, envelope, found]
    | some last =>
      obtain ⟨earlier, mem, rfl⟩ := chunks.bounded last found
      have later := above earlier mem
      simp [alreadyCompleted, clientMessageKey, chunkEnvelope, envelope, found, later]
  have notIgnored : socket.ignoresChunk
      (sender.chunkEnvelope emitted.seqId pieces piece count) = false := by
    rcases built with ⟨_, gone⟩ | ⟨_, seenAt, found⟩
    · simp [ignoresChunk, shouldIgnoreChunk, chunkEnvelope, envelope, gone]
    · simp [ignoresChunk, shouldIgnoreChunk, chunkEnvelope, envelope, found, metadataOf]
  have fits : decide (ctx.wireSizeBytes > remoteControlSegmentMaxBytes) = false :=
    decide_eq_false (Nat.not_lt.mpr sized)
  obtain ⟨after, assembledAfter, observed⟩ := observeChunk_next
    wellCut ctx.now count built at_count
  refine ⟨after, assembledAfter, ?_⟩
  simp [observeClientMessage, notCompleted, notIgnored, fits, observed]

end CodexFormal.RemoteControl
