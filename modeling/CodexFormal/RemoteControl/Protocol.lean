import CodexFormal.Foundation.FiniteMap

/-!
# Remote-control wire types

The envelopes exchanged with the remote-control backend, as far as the
connection tracker, the segment reassembler and the outbound buffer read them.
JSON values are kept as their text.
-/

set_option autoImplicit false

namespace CodexFormal.RemoteControl

structure ClientId where
  text : String
deriving DecidableEq, Repr

structure StreamId where
  text : String
deriving DecidableEq, Repr

abbrev ClientKey := ClientId × StreamId

abbrev ConnectionId := Nat

inductive RequestId where
  | string (value : String)
  | integer (value : Int)
deriving DecidableEq, Repr

inductive JSONRPCMessage where
  | request (id : RequestId) (method : String) (params : Option String)
  | notification (method : String) (params : Option String)
  | response (id : RequestId) (result : String)
  | error (id : RequestId) (code : Int) (message : String) (data : Option String)
deriving DecidableEq, Repr

def remoteControlMessageStartsConnection : JSONRPCMessage → Bool
  | .request _ method _ => method == "initialize"
  | _ => false

inductive ClientEvent where
  | clientMessage (message : JSONRPCMessage)
  | clientMessageChunk (segmentId segmentCount messageSizeBytes : Nat)
      (messageChunkBase64 : String)
  | ack (segmentId : Option Nat)
  | ping
  | clientClosed
deriving DecidableEq, Repr

structure ClientEnvelope where
  event : ClientEvent
  clientId : ClientId
  streamId : Option StreamId
  seqId : Option Nat
  cursor : Option String
deriving DecidableEq, Repr

def ClientEnvelope.isInitialize (envelope : ClientEnvelope) : Bool :=
  match envelope.event with
  | .clientMessage message => remoteControlMessageStartsConnection message
  | _ => false

inductive PongStatus where
  | active
  | unknown
deriving DecidableEq, Repr

/-- What the tracker hands to the app server.  The writer, the origin and the
authentication of an opened connection are not read by any modelled step. -/
inductive TransportEvent where
  | connectionOpened (connectionId : ConnectionId)
  | connectionClosed (connectionId : ConnectionId)
  | incomingMessage (connectionId : ConnectionId) (message : JSONRPCMessage)
deriving DecidableEq, Repr

end CodexFormal.RemoteControl
