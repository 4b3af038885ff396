import CodexFormal.RemoteControl.ClientTracker
import CodexFormal.RemoteControl.OutboundBuffer

/-!
# The state shared by the websocket reader and writer

`WebsocketState` outlives a single websocket connection: the writer numbers the
server envelopes of each stream and buffers them, the reader reassembles client
messages, hands them to the connection tracker and applies acknowledgements.
A result of `none` stands for the arithmetic underflow of the buffer's counter.
-/

set_option autoImplicit false

namespace CodexFormal.RemoteControl

open Foundation

def u64Max : Nat := 2 ^ 64 - 1

def channelCapacity : Nat := 128

structure WebsocketState where
  outboundBuffer : BoundedOutboundBuffer
  subscribeCursor : Option String
  nextSeqIdByStream : FiniteMap ClientKey Nat
  lastCompletedClientChunkSeqIdByStream : FiniteMap (ClientId × Option StreamId) Nat
  clientSegmentReassembler : ClientSegmentReassembler

/-- What an `Ack` acknowledges: it needs a sequence id and a stream. -/
def ClientEnvelope.acknowledges (envelope : ClientEnvelope) :
    Option (ClientKey × Nat × Option Nat) :=
  match envelope.event, envelope.seqId, envelope.streamId with
  | .ack segmentId, some ackedSeqId, some streamId =>
    some ((envelope.clientId, streamId), ackedSeqId, segmentId)
  | _, _, _ => none

namespace WebsocketState

def new : WebsocketState where
  outboundBuffer := .new
  subscribeCursor := none
  nextSeqIdByStream := ∅
  lastCompletedClientChunkSeqIdByStream := ∅
  clientSegmentReassembler := .empty

variable (envelope : ClientEnvelope)

def clientMessageKey : Option ((ClientId × Option StreamId) × Nat) :=
  match envelope.event, envelope.seqId with
  | .clientMessageChunk _ _ _ _, some seqId =>
    some ((envelope.clientId, envelope.streamId), seqId)
  | _, _ => none

variable (state : WebsocketState)

/-- The chunk belongs to the last completed message of its stream or to one
before it. -/
def alreadyCompleted (envelope : ClientEnvelope) : Bool :=
  (clientMessageKey envelope).any fun key =>
    (state.lastCompletedClientChunkSeqIdByStream.lookup key.1).any fun lastSeqId =>
      decide (lastSeqId ≥ key.2)

def ignoresChunk (state : WebsocketState) (envelope : ClientEnvelope) : Bool :=
  match envelope.event, envelope.seqId, envelope.streamId with
  | .clientMessageChunk segmentId _ _ _, some seqId, some streamId =>
    state.clientSegmentReassembler.shouldIgnoreChunk envelope.clientId streamId seqId
      segmentId
  | _, _, _ => false

def observeClientMessage (codec : SegmentCodec) (now : Nat)
    (envelope : ClientEnvelope) (wireSizeBytes : Nat) :
    WebsocketState × ClientSegmentObservation :=
  if state.alreadyCompleted envelope then (state, .dropped)
  else if state.ignoresChunk envelope then (state, .dropped)
  else if (clientMessageKey envelope).isSome &&
      decide (wireSizeBytes > remoteControlSegmentMaxBytes) then
    match envelope.streamId with
    | some streamId =>
      ({ state with
        clientSegmentReassembler :=
          state.clientSegmentReassembler.invalidateStream envelope.clientId streamId },
        .dropped)
    | none => (state, .dropped)
  else
    let observed := state.clientSegmentReassembler.observe codec now envelope
    ({ state with clientSegmentReassembler := observed.1 }, observed.2)

def recordClientMessageDelivery (envelope : ClientEnvelope)
    (messageKey : Option ((ClientId × Option StreamId) × Nat)) : Option WebsocketState :=
  let advanced :=
    { state with
      subscribeCursor := envelope.cursor <|> state.subscribeCursor
      lastCompletedClientChunkSeqIdByStream :=
        match messageKey with
        | some (key, seqId) =>
          state.lastCompletedClientChunkSeqIdByStream.insert key seqId
        | none => state.lastCompletedClientChunkSeqIdByStream }
  match envelope.acknowledges with
  | some (key, ackedSeqId, ackedSegmentId) =>
    (advanced.outboundBuffer.ack key ackedSeqId ackedSegmentId).map fun buffer =>
      { advanced with outboundBuffer := buffer }
  | none => some advanced

variable (clientId : ClientId)

def invalidateClientMessageStream (streamId : StreamId) : WebsocketState :=
  { state with
    lastCompletedClientChunkSeqIdByStream :=
      state.lastCompletedClientChunkSeqIdByStream.erase (clientId, some streamId) }

def invalidateClientMessageClient : WebsocketState :=
  { state with
    lastCompletedClientChunkSeqIdByStream :=
      FiniteMap.retain (fun key => decide (key.1 ≠ clientId))
        state.lastCompletedClientChunkSeqIdByStream }

/-- Forgets what was received from a closed client: on one stream, or on all of
them when the close names no stream. -/
def invalidateClosedClient (state : WebsocketState) (clientId : ClientId) :
    Option StreamId → WebsocketState
  | some streamId =>
    { state with
      clientSegmentReassembler :=
        state.clientSegmentReassembler.invalidateStream clientId streamId
      }.invalidateClientMessageStream clientId streamId
  | none =>
    { state with
      clientSegmentReassembler :=
        state.clientSegmentReassembler.invalidateClient clientId
      }.invalidateClientMessageClient clientId

/-- What the writer does with one queued server event while it holds the lock:
the state it leaves and the envelopes it buffered, or nothing for an event that
cannot be split and is skipped. -/
def assignAndInsert (codec : ServerCodec) (event : ServerEvent)
    (clientId : ClientId) (streamId : StreamId) :
    WebsocketState × Option (List ServerEnvelope) :=
  let seqKey := (clientId, streamId)
  let seqId := (state.nextSeqIdByStream.lookup seqKey).getD 1
  let entered := { state with nextSeqIdByStream := state.nextSeqIdByStream.insert seqKey seqId }
  match splitServerEnvelopeForTransport codec ⟨event, clientId, streamId, seqId⟩ with
  | .error _ => (entered, none)
  | .ok envelopes =>
    -- an envelope without a payload is logged and neither sent nor buffered
    let serialized := envelopes.filter fun envelope => (codec.toPayload envelope).isSome
    ({ entered with
        outboundBuffer := serialized.foldl BoundedOutboundBuffer.insert state.outboundBuffer
        nextSeqIdByStream :=
          entered.nextSeqIdByStream.insert seqKey (min (seqId + 1) u64Max) },
      some serialized)

/-- The envelopes that a new connection sends again before anything else. -/
def replayed (codec : ServerCodec) : List ServerEnvelope :=
  state.outboundBuffer.serverEnvelopes.filter fun envelope =>
    (codec.toPayload envelope).isSome

end WebsocketState

structure Reader where
  tracker : ClientTracker
  websocket : WebsocketState

/-- What the environment decides for one received websocket message. -/
structure ReadContext where
  now : Nat
  fresh : StreamId
  accepts : TransportEvent → Bool
  wireSizeBytes : Nat

structure ReaderOutcome where
  reader : Reader
  events : List TransportEvent
  stopped : Bool

def Reader.readEnvelope (reader : Reader) (codec : SegmentCodec) (context : ReadContext)
    (received : ClientEnvelope) : Option ReaderOutcome :=
  let messageKey := WebsocketState.clientMessageKey received
  let observed := reader.websocket.observeClientMessage codec context.now received
    context.wireSizeBytes
  match observed.2 with
  | .pending => some ⟨⟨reader.tracker, observed.1⟩, [], false⟩
  | .dropped => some ⟨⟨reader.tracker, observed.1⟩, [], false⟩
  | .forward envelope =>
    let handled := reader.tracker.handleMessage context.now context.fresh
      context.accepts envelope
    if handled.stopped then some ⟨⟨handled.tracker, observed.1⟩, handled.events, true⟩
    else
      (observed.1.recordClientMessageDelivery envelope messageKey).map fun recorded =>
        let websocket :=
          if envelope.event = .clientClosed then
            recorded.invalidateClosedClient envelope.clientId envelope.streamId
          else recorded
        ⟨⟨handled.tracker, websocket⟩, handled.events, false⟩

end CodexFormal.RemoteControl
