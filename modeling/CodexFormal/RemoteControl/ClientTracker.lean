import CodexFormal.Foundation.Machine
import CodexFormal.RemoteControl.Protocol

/-!
# The remote-control connection tracker

`ClientTracker` keeps one connection for each client key and one outbound task
for each connection it has opened.  A task that ends hands back only its client
key, and the websocket reader then closes whatever connection is registered
under that key.

Everything outside the tracker is an argument of the step: the clock, the
random stream id, and whether the transport event queue accepts an event before
its send timeout.  A disconnect token is named by the connection it was created
for.
-/

set_option autoImplicit false

namespace CodexFormal.RemoteControl

open Foundation

/-- Milliseconds. -/
def remoteControlClientIdleTimeout : Nat := 10 * 60 * 1000

structure ClientState where
  connectionId : ConnectionId
  lastActivityAt : Nat
  lastInboundSeqId : Option Nat
deriving DecidableEq, Repr

inductive TaskStatus where
  | running
  | ended
  | collected
deriving DecidableEq, Repr

/-- A `run_client_outbound` task.  It owns the disconnect token of its
connection and returns its client key. -/
structure OutboundTask where
  clientKey : ClientKey
  disconnectToken : ConnectionId
  status : TaskStatus
deriving DecidableEq, Repr

/-- `joinSet` lists every task that was spawned, the newest first; the ones
that `join_next` has already returned stay in it as `collected`. -/
structure ClientTracker where
  clients : FiniteMap ClientKey ClientState
  legacyStreamIds : FiniteMap ClientId StreamId
  joinSet : List OutboundTask
  cancelledTokens : List ConnectionId
  shutdownToken : Bool
  nextConnectionId : ConnectionId

/-- The result of an operation: the tracker it leaves, the events it passed to
`send_transport_event`, the pongs it queued, and whether it returned
`Err(Stopped)`. -/
structure TrackerOutcome where
  tracker : ClientTracker
  events : List TransportEvent
  pongs : List (ClientKey × PongStatus)
  stopped : Bool

namespace ClientTracker

def new : ClientTracker where
  clients := ∅
  legacyStreamIds := ∅
  joinSet := []
  cancelledTokens := []
  shutdownToken := false
  nextConnectionId := 0

variable (tracker : ClientTracker) (token : ConnectionId)

def cancel : ClientTracker :=
  { tracker with cancelledTokens := token :: tracker.cancelledTokens }

def isCancelled : Bool :=
  tracker.shutdownToken || tracker.cancelledTokens.contains token

variable (clientKey : ClientKey)

def removeClient : Option (ClientState × ClientTracker) :=
  match tracker.clients.lookup clientKey with
  | none => none
  | some client =>
    let legacyStreamIds :=
      if tracker.legacyStreamIds.lookup clientKey.1 = some clientKey.2 then
        tracker.legacyStreamIds.erase clientKey.1
      else tracker.legacyStreamIds
    some (client,
      { tracker with
        clients := tracker.clients.erase clientKey
        legacyStreamIds := legacyStreamIds })

variable (accepts : TransportEvent → Bool)

def sendTransportEvent (event : TransportEvent) : TrackerOutcome :=
  ⟨tracker, [event], [], !accepts event⟩

section

variable (tracker : ClientTracker)

def closeClient (accepts : TransportEvent → Bool) (clientKey : ClientKey) : TrackerOutcome :=
  match tracker.removeClient clientKey with
  | none => ⟨tracker, [], [], false⟩
  | some (client, removed) =>
    (removed.cancel client.connectionId).sendTransportEvent accepts
      (.connectionClosed client.connectionId)

def recordInboundMessageDelivery (clientKey : ClientKey) (seqId : Option Nat) : ClientTracker :=
  match seqId with
  | none => tracker
  | some seqId =>
    { tracker with
      clients := FiniteMap.modify tracker.clients clientKey fun client =>
        { client with lastInboundSeqId := some seqId } }

def clientIsAlive (client : ClientState) (now : Nat) : Bool :=
  decide (now - client.lastActivityAt < remoteControlClientIdleTimeout)

/-- The stream a message is for, and the tracker after the legacy table was
consulted; an initialize takes its entry out of the table. -/
def resolveStreamId (fresh : StreamId) (envelope : ClientEnvelope) : StreamId × ClientTracker :=
  match envelope.streamId with
  | some streamId => (streamId, tracker)
  | none =>
    if envelope.isInitialize then
      ((tracker.legacyStreamIds.lookup envelope.clientId).getD fresh,
        { tracker with
          legacyStreamIds := tracker.legacyStreamIds.erase envelope.clientId })
    else
      ((tracker.legacyStreamIds.lookup envelope.clientId).getD
        (if envelope.event = .ping then fresh else ⟨""⟩), tracker)

/-- The message was already delivered on this connection. -/
def isDuplicate (clientKey : ClientKey) (envelope : ClientEnvelope) : Bool :=
  match envelope.seqId, tracker.clients.lookup clientKey with
  | some seqId, some client =>
    client.lastInboundSeqId.any (fun last => decide (seqId ≤ last)) &&
      !envelope.isInitialize
  | _, _ => false

end

variable (now : Nat)

/-- Registers the connection that `openConnection` has announced, and spawns
its outbound task. -/
def register (clientKey : ClientKey)
    (connectionId : ConnectionId) (isLegacyStreamId : Bool) : ClientTracker :=
  { tracker with
    clients := tracker.clients.insert clientKey ⟨connectionId, now, none⟩
    legacyStreamIds :=
      if isLegacyStreamId then
        tracker.legacyStreamIds.insert clientKey.1 clientKey.2
      else tracker.legacyStreamIds
    joinSet := ⟨clientKey, connectionId, .running⟩ :: tracker.joinSet }

def openConnection (accepts : TransportEvent → Bool) (clientKey : ClientKey)
    (isLegacyStreamId : Bool) (seqId : Option Nat) (message : JSONRPCMessage) :
    TrackerOutcome :=
  let connectionId := tracker.nextConnectionId
  let allocated := { tracker with nextConnectionId := connectionId + 1 }
  let opened := TransportEvent.connectionOpened connectionId
  let incoming := TransportEvent.incomingMessage connectionId message
  if accepts opened then
    let registered := allocated.register now clientKey connectionId isLegacyStreamId
    if accepts incoming then
      let delivered :=
        if isLegacyStreamId then registered
        else registered.recordInboundMessageDelivery clientKey seqId
      ⟨delivered, [opened, incoming], [], false⟩
    else
      -- the close is detached, so its own result is not waited for
      match registered.removeClient clientKey with
      | none => ⟨registered, [opened, incoming], [], true⟩
      | some (client, removed) =>
        ⟨removed.cancel client.connectionId,
          [opened, incoming, .connectionClosed client.connectionId], [], true⟩
  else ⟨allocated, [opened], [], true⟩

def forwardMessage (accepts : TransportEvent → Bool) (clientKey : ClientKey)
    (client : ClientState) (seqId : Option Nat) (message : JSONRPCMessage) :
    TrackerOutcome :=
  let touched :=
    { tracker with
      clients := tracker.clients.insert clientKey
        { client with lastActivityAt := now } }
  let incoming := TransportEvent.incomingMessage client.connectionId message
  if accepts incoming then
    ⟨touched.recordInboundMessageDelivery clientKey seqId, [incoming], [], false⟩
  else ⟨touched, [incoming], [], true⟩

/-- An initialize for a registered client first closes its connection. -/
def closeBeforeReopen (clientKey : ClientKey) (envelope : ClientEnvelope) : TrackerOutcome :=
  if envelope.isInitialize && (tracker.clients.lookup clientKey).isSome then
    tracker.closeClient accepts clientKey
  else ⟨tracker, [], [], false⟩

def handleClientMessage (accepts : TransportEvent → Bool) (clientKey : ClientKey)
    (envelope : ClientEnvelope) (message : JSONRPCMessage) : TrackerOutcome :=
  if tracker.isDuplicate clientKey envelope then ⟨tracker, [], [], false⟩
  else
    let closed := tracker.closeBeforeReopen accepts clientKey envelope
    if closed.stopped then closed
    else
      let handled :=
        match closed.tracker.clients.lookup clientKey with
        | some client =>
          closed.tracker.forwardMessage now accepts clientKey client
            envelope.seqId message
        | none =>
          if envelope.isInitialize then
            closed.tracker.openConnection now accepts clientKey
              envelope.streamId.isNone envelope.seqId message
          else ⟨closed.tracker, [], [], false⟩
      { handled with events := closed.events ++ handled.events }

def handlePing (clientKey : ClientKey) : TrackerOutcome :=
  match tracker.clients.lookup clientKey with
  | some client =>
    ⟨{ tracker with
        clients := tracker.clients.insert clientKey
          { client with lastActivityAt := now } },
      [], [(clientKey, .active)], false⟩
  | none => ⟨tracker, [], [(clientKey, .unknown)], false⟩

def handleMessage (fresh : StreamId) (accepts : TransportEvent → Bool) (envelope : ClientEnvelope) :
    TrackerOutcome :=
  let (streamId, resolved) := tracker.resolveStreamId fresh envelope
  if streamId.text = "" then ⟨resolved, [], [], false⟩
  else
    let clientKey := (envelope.clientId, streamId)
    match envelope.event with
    | .clientMessage message =>
      resolved.handleClientMessage now accepts clientKey envelope message
    | .clientMessageChunk _ _ _ _ => ⟨resolved, [], [], false⟩
    | .ack _ => ⟨resolved, [], [], false⟩
    | .ping => resolved.handlePing now clientKey
    | .clientClosed => resolved.closeClient accepts clientKey

/-- Closes the given clients one after another and stops at the first
`Err(Stopped)`. -/
def closeClients (accepts : TransportEvent → Bool) : ClientTracker → List ClientKey → TrackerOutcome
  | tracker, [] => ⟨tracker, [], [], false⟩
  | tracker, clientKey :: rest =>
    let closed := tracker.closeClient accepts clientKey
    if closed.stopped then closed
    else
      let later := closeClients accepts closed.tracker rest
      { later with events := closed.events ++ later.events }

def expiredClients : List ClientKey :=
  (tracker.clients.entries.filter fun entry => !clientIsAlive entry.2 now).map
    Sigma.fst

def closeExpiredClients (accepts : TransportEvent → Bool) : TrackerOutcome :=
  closeClients accepts tracker (tracker.expiredClients now)

def setTaskStatus (status : TaskStatus) : ClientTracker :=
  { tracker with
    joinSet := tracker.joinSet.map fun task =>
      if task.disconnectToken = token then { task with status := status } else task }

def findTask : Option OutboundTask :=
  tracker.joinSet.find? fun task => decide (task.disconnectToken = token)

/-- `shutdown` closes every client without looking at the send results, and
then drains the join set. -/
def shutdown : TrackerOutcome :=
  let closed := closeClients (fun _ => true)
    { tracker with shutdownToken := true } tracker.clients.keys
  ⟨{ closed.tracker with
      joinSet := closed.tracker.joinSet.map fun task =>
        { task with status := .collected } },
    closed.events, [], false⟩

end ClientTracker

/-- Why the loop of `run_client_outbound` was left. -/
inductive OutboundEnd where
  | tokenCancelled
  | writerClosed
  | statusSenderDropped
  | serverEventsClosed
deriving DecidableEq, Repr

/-- `disconnect` is the app server using the token it was given with the opened
connection.  `collect` is the reader's branch for `bookkeep_join_set`;
`collectFailed` is a join error, which the bookkeeping loop skips. -/
inductive TrackerStep where
  | handleMessage (now : Nat) (fresh : StreamId) (accepts : TransportEvent → Bool)
      (envelope : ClientEnvelope)
  | closeExpiredClients (now : Nat) (accepts : TransportEvent → Bool)
  | disconnect (connectionId : ConnectionId)
  | outboundEnds (connectionId : ConnectionId) (reason : OutboundEnd)
  | collect (connectionId : ConnectionId) (accepts : TransportEvent → Bool)
  | collectFailed (connectionId : ConnectionId)
  | shutdown

namespace ClientTracker

def mayEnd (tracker : ClientTracker) (token : ConnectionId) : OutboundEnd → Bool
  | .tokenCancelled => tracker.isCancelled token
  | .statusSenderDropped =>
    tracker.clients.entries.all fun entry => decide (entry.2.connectionId ≠ token)
  | .writerClosed => true
  | .serverEventsClosed => true

def step (tracker : ClientTracker) : TrackerStep → Option (ClientTracker × List TransportEvent)
  | .handleMessage now fresh accepts envelope =>
    let outcome := tracker.handleMessage now fresh accepts envelope
    some (outcome.tracker, outcome.events)
  | .closeExpiredClients now accepts =>
    let outcome := tracker.closeExpiredClients now accepts
    some (outcome.tracker, outcome.events)
  | .disconnect connectionId => some (tracker.cancel connectionId, [])
  | .outboundEnds connectionId reason =>
    match tracker.findTask connectionId with
    | some ⟨_, _, .running⟩ =>
      if tracker.mayEnd connectionId reason then
        some (tracker.setTaskStatus connectionId .ended, [])
      else none
    | _ => none
  | .collect connectionId accepts =>
    match tracker.findTask connectionId with
    | some ⟨clientKey, _, .ended⟩ =>
      let outcome :=
        (tracker.setTaskStatus connectionId .collected).closeClient accepts clientKey
      some (outcome.tracker, outcome.events)
    | _ => none
  | .collectFailed connectionId =>
    match tracker.findTask connectionId with
    | some ⟨_, _, .ended⟩ =>
      some (tracker.setTaskStatus connectionId .collected, [])
    | _ => none
  | .shutdown => some (tracker.shutdown.tracker, tracker.shutdown.events)

def machine : Machine ClientTracker TrackerStep TransportEvent := ⟨step⟩

end ClientTracker

end CodexFormal.RemoteControl
