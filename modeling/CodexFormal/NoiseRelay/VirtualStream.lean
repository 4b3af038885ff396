import CodexFormal.Foundation.Chunks
import CodexFormal.Foundation.Machine
import CodexFormal.NoiseRelay.MessageFraming

/-!
# The two ends of a Noise virtual stream

The writer cuts each framed message into records, numbers them and encrypts
them one after another; the reader reorders, decrypts and decodes.  The Noise
cipher is third-party code and enters as `NoiseTransport`, whose operations take
the nonce that the transport counts on either side.
-/

set_option autoImplicit false

namespace CodexFormal.NoiseRelay

open Foundation

structure NoiseTransport where
  encrypt : Nat → Bytes → Except String Bytes
  decrypt : Nat → Bytes → Except String Bytes

/-- Decryption inverts encryption under the same nonce. -/
def NoiseTransport.Inverse (transport : NoiseTransport) : Prop :=
  ∀ nonce plaintext ciphertext, transport.encrypt nonce plaintext = .ok ciphertext →
    transport.decrypt nonce ciphertext = .ok plaintext

/-- The number to use and the one after it; the last number is never used. -/
def takeNextSequence (nextSeq : Nat) : Except String (Nat × Nat) :=
  if nextSeq < u32Max then .ok (nextSeq, nextSeq + 1)
  else .error "Noise relay sequence number exhausted"

structure RelayData where
  seq : Nat
  payload : Bytes
deriving DecidableEq, Repr

/-- The writer's inner loop over plaintext records.  It stops for good when it
runs out of sequence numbers or a record cannot be encrypted. -/
def writeRecords (transport : NoiseTransport) (nextSeq nonce : Nat) : List Bytes → List RelayData
  | [] => []
  | record :: rest =>
    match takeNextSequence nextSeq with
    | .error _ => []
    | .ok (seq, next) =>
      match transport.encrypt nonce record with
      | .error _ => []
      | .ok ciphertext =>
        ⟨seq, ciphertext⟩ :: writeRecords transport next (nonce + 1) rest

/-- The reader's half, with the receive nonce of its transport. -/
structure NoiseVirtualStream where
  inboundCiphertexts : OrderedCiphertextFrames
  inboundDecoder : MessageDecoder
  receiveNonce : Nat

def NoiseVirtualStream.new : NoiseVirtualStream := ⟨.empty, ⟨[]⟩, 0⟩

/-- What a call of `receive_data` did: the ciphertexts that were released, the
messages that the decoder emitted, and what the call returned. -/
structure ReceiveOutcome where
  stream : NoiseVirtualStream
  released : List Bytes
  messages : List Bytes
  result : Except String Unit

/-- Decoding a message for its handler and queueing it, one after another. -/
def deliverAll (deliver : Bytes → Except String Unit) : List Bytes → Except String Unit
  | [] => .ok ()
  | message :: rest =>
    match deliver message with
    | .error error => .error error
    | .ok () => deliverAll deliver rest

namespace NoiseVirtualStream

def receiveCiphertexts (transport : NoiseTransport) (deliver : Bytes → Except String Unit)
    (stream : NoiseVirtualStream) :
    List Bytes → NoiseVirtualStream × List Bytes × Except String Unit
  | [] => (stream, [], .ok ())
  | ciphertext :: rest =>
    match transport.decrypt stream.receiveNonce ciphertext with
    | .error error => (stream, [], .error ("Noise relay decryption failed: " ++ error))
    | .ok plaintext =>
      let decoded := stream.inboundDecoder.push plaintext
      let received :=
        { stream with
          inboundDecoder := decoded.1
          receiveNonce := stream.receiveNonce + 1 }
      match decoded.2 with
      | .error error => (received, [], .error error)
      | .ok messages =>
        match deliverAll deliver messages with
        | .error error => (received, messages, .error error)
        | .ok () =>
          let later := received.receiveCiphertexts transport deliver rest
          (later.1, messages ++ later.2.1, later.2.2)

def receiveData (stream : NoiseVirtualStream) (transport : NoiseTransport)
    (deliver : Bytes → Except String Unit) (data : RelayData) : ReceiveOutcome :=
  let pushed := stream.inboundCiphertexts.push data.seq data.payload
  let stored := { stream with inboundCiphertexts := pushed.1 }
  match pushed.2 with
  | .error error => ⟨stored, [], [], .error error⟩
  | .ok released =>
    let received := stored.receiveCiphertexts transport deliver released
    ⟨received.1, released, received.2.1, received.2.2⟩

end NoiseVirtualStream

inductive RelayOutput where
  | released (ciphertext : Bytes)
  | message (bytes : Bytes)
deriving DecidableEq, Repr

def ReceiveOutcome.outputs (outcome : ReceiveOutcome) : List RelayOutput :=
  outcome.released.map .released ++ outcome.messages.map .message

/-- The reader gives its stream up at the first error. -/
def relayMachine (transport : NoiseTransport) (deliver : Bytes → Except String Unit) :
    Machine NoiseVirtualStream RelayData RelayOutput where
  step stream data :=
    let outcome := stream.receiveData transport deliver data
    match outcome.result with
    | .error _ => none
    | .ok () => some (outcome.stream, outcome.outputs)

end CodexFormal.NoiseRelay
