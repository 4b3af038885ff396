import CodexFormal.RemoteControl.Protocol

/-!
# Reassembly of segmented client messages

One partial assembly is kept for each client.  Base64 decoding and JSON parsing
are third-party code and enter as the fields of `SegmentCodec`: `decodeSlice`
is given the encoded chunk and the size of the output slice, and returns the
decoded bytes.
-/

set_option autoImplicit false

namespace CodexFormal.RemoteControl

open Foundation

def remoteControlSegmentTargetBytes : Nat := 100 * 1024
def remoteControlSegmentMaxBytes : Nat := 150 * 1024
def remoteControlReassembledMaxBytes : Nat := 100 * 1024 * 1024
def remoteControlSegmentCountMax : Nat := 1024
def remoteControlSegmentAssemblyMaxCount : Nat := 128

inductive DecodeSliceError where
  | outputSliceTooSmall
  | decodeError
deriving DecidableEq, Repr

structure SegmentCodec where
  decodedLenEstimate : Nat → Nat
  decodeSlice : String → Nat → Except DecodeSliceError (List UInt8)
  fromSlice : List UInt8 → Option JSONRPCMessage

structure ClientSegmentMetadata where
  seqId : Nat
  segmentCount : Nat
  messageSizeBytes : Nat
deriving DecidableEq, Repr

structure ClientSegmentAssembly where
  streamId : StreamId
  metadata : ClientSegmentMetadata
  raw : List UInt8
  nextSegmentId : Nat
  lastChunkSeenAt : Nat
deriving DecidableEq, Repr

structure ClientSegmentReassembler where
  assemblies : FiniteMap ClientId ClientSegmentAssembly

inductive ClientSegmentObservation where
  | forward (envelope : ClientEnvelope)
  | pending
  | dropped
deriving DecidableEq, Repr

inductive AssemblyUpdate where
  | pending
  | ignore
  | drop
  | complete (message : JSONRPCMessage)
deriving DecidableEq, Repr

def updateAssembly (codec : SegmentCodec) (now : Nat)
    (metadata : ClientSegmentMetadata) (segmentId : Nat) (chunk : String)
    (assembly : ClientSegmentAssembly) : ClientSegmentAssembly × AssemblyUpdate :=
  if metadata.seqId < assembly.metadata.seqId then (assembly, .ignore)
  else if assembly.metadata ≠ metadata then (assembly, .drop)
  else if segmentId < assembly.nextSegmentId then (assembly, .pending)
  else if segmentId ≠ assembly.nextSegmentId then (assembly, .drop)
  else
    let seen := { assembly with lastChunkSeenAt := now }
    let chunkStart := assembly.raw.length
    let chunkEnd := min metadata.messageSizeBytes
      (chunkStart + codec.decodedLenEstimate chunk.utf8ByteSize)
    match codec.decodeSlice chunk (chunkEnd - chunkStart) with
    | .error _ => (seen, .drop)
    | .ok decoded =>
      let extended :=
        { seen with
          raw := assembly.raw ++ decoded
          nextSegmentId := assembly.nextSegmentId + 1 }
      if extended.nextSegmentId < metadata.segmentCount then (extended, .pending)
      else if extended.raw.length ≠ metadata.messageSizeBytes then (extended, .drop)
      else
        match codec.fromSlice extended.raw with
        | some message => (extended, .complete message)
        | none => (extended, .drop)

namespace ClientSegmentReassembler

def empty : ClientSegmentReassembler := ⟨∅⟩

variable (reassembler : ClientSegmentReassembler) (clientId : ClientId) (streamId : StreamId)

def removeAssembly : ClientSegmentReassembler :=
  if (reassembler.assemblies.lookup clientId).any
      (fun assembly => decide (assembly.streamId = streamId)) then
    ⟨reassembler.assemblies.erase clientId⟩
  else reassembler

def invalidateStream : ClientSegmentReassembler :=
  reassembler.removeAssembly clientId streamId

def invalidateClient : ClientSegmentReassembler :=
  ⟨reassembler.assemblies.erase clientId⟩

def shouldIgnoreChunk (seqId segmentId : Nat) : Bool :=
  (reassembler.assemblies.lookup clientId).any fun assembly =>
    decide (assembly.streamId = streamId ∧
      (seqId < assembly.metadata.seqId ∨
        (seqId = assembly.metadata.seqId ∧ segmentId < assembly.nextSegmentId)))

/-- The client whose assembly was extended longest ago, the first of them in
iteration order. -/
def oldestAssembly (assemblies : FiniteMap ClientId ClientSegmentAssembly) : Option ClientId :=
  (assemblies.entries.foldl (fun oldest entry =>
    match oldest with
    | none => some entry
    | some best =>
      if entry.2.lastChunkSeenAt < best.2.lastChunkSeenAt then some entry
      else some best) none).map Sigma.fst

/-- Every round of the eviction loop removes one assembly, so the number of
assemblies bounds the rounds. -/
def evictLoop : Nat → FiniteMap ClientId ClientSegmentAssembly →
    FiniteMap ClientId ClientSegmentAssembly
  | 0, assemblies => assemblies
  | rounds + 1, assemblies =>
    if FiniteMap.size assemblies < remoteControlSegmentAssemblyMaxCount then assemblies
    else
      match oldestAssembly assemblies with
      | none => assemblies
      | some clientId => evictLoop rounds (assemblies.erase clientId)

def evictAssembliesIfFull : ClientSegmentReassembler :=
  ⟨evictLoop (FiniteMap.size reassembler.assemblies) reassembler.assemblies⟩

variable (now : Nat)

def startAssembly (clientId : ClientId) (streamId : StreamId) (metadata : ClientSegmentMetadata) :
    ClientSegmentReassembler :=
  ⟨reassembler.assemblies.insert clientId ⟨streamId, metadata, [], 0, now⟩⟩

/-- The assembly the chunk belongs to is in the map afterwards. -/
def prepareAssembly (clientId : ClientId) (streamId : StreamId) (metadata : ClientSegmentMetadata) :
    ClientSegmentReassembler :=
  match reassembler.assemblies.lookup clientId with
  | some assembly =>
    if assembly.streamId ≠ streamId then
      reassembler.startAssembly now clientId streamId metadata
    else reassembler
  | none =>
    reassembler.evictAssembliesIfFull.startAssembly now clientId streamId metadata

def chunkIsValid (segmentId segmentCount messageSizeBytes : Nat) (chunk : String) : Bool :=
  !(segmentCount == 0 || decide (segmentCount > remoteControlSegmentCountMax) ||
    decide (segmentId ≥ segmentCount) || messageSizeBytes == 0 ||
    decide (messageSizeBytes > remoteControlReassembledMaxBytes) || chunk == "")

def observeChunk (codec : SegmentCodec)
    (now : Nat) (envelope : ClientEnvelope) (streamId : StreamId)
    (metadata : ClientSegmentMetadata) (segmentId : Nat) (chunk : String) :
    ClientSegmentReassembler × ClientSegmentObservation :=
  let clientId := envelope.clientId
  if reassembler.shouldIgnoreChunk clientId streamId metadata.seqId segmentId then
    (reassembler, .dropped)
  else if !chunkIsValid segmentId metadata.segmentCount metadata.messageSizeBytes chunk then
    (reassembler.removeAssembly clientId streamId, .dropped)
  else
    let prepared := reassembler.prepareAssembly now clientId streamId metadata
    match prepared.assemblies.lookup clientId with
    | none => (prepared, .dropped)
    | some assembly =>
      let (updated, update) :=
        updateAssembly codec now metadata segmentId chunk assembly
      let stored : ClientSegmentReassembler :=
        ⟨prepared.assemblies.insert clientId updated⟩
      match update with
      | .pending => (stored, .pending)
      | .ignore => (stored, .dropped)
      | .drop => (stored.removeAssembly clientId streamId, .dropped)
      | .complete message =>
        (stored.removeAssembly clientId streamId,
          .forward { envelope with event := .clientMessage message })

def observe (codec : SegmentCodec) (now : Nat) (envelope : ClientEnvelope) :
    ClientSegmentReassembler × ClientSegmentObservation :=
  match envelope.event with
  | .clientMessageChunk segmentId segmentCount messageSizeBytes chunk =>
    match envelope.seqId, envelope.streamId with
    | some seqId, some streamId =>
      reassembler.observeChunk codec now envelope streamId
        ⟨seqId, segmentCount, messageSizeBytes⟩ segmentId chunk
    | _, _ => (reassembler, .dropped)
  | _ => (reassembler, .forward envelope)

end ClientSegmentReassembler

end CodexFormal.RemoteControl
