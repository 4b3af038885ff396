import CodexFormal.Foundation.Chunks
import CodexFormal.RemoteControl.Segment

/-!
# Splitting server envelopes for transport

A server message that does not fit into one websocket message is sent as a run
of chunk envelopes.  Serialization and base64 encoding are third-party code and
enter as the fields of `ServerCodec`; an `Except` error carries the text of the
I/O error.
-/

set_option autoImplicit false

namespace CodexFormal.RemoteControl

open Foundation List

inductive OutgoingMessage where
  | request (body : String)
  | appServerNotification (body : String)
  | response (id : RequestId) (result : String)
  | error (id : RequestId) (code : Int) (message : String) (data : Option String)
deriving DecidableEq, Repr

inductive ServerEvent where
  | serverMessage (message : OutgoingMessage)
  | serverMessageChunk (segmentId segmentCount messageSizeBytes : Nat)
      (messageChunkBase64 : String)
  | ack
  | pong (status : PongStatus)
deriving DecidableEq, Repr

def ServerEvent.segmentId : ServerEvent → Option Nat
  | .serverMessageChunk segmentId _ _ _ => some segmentId
  | .serverMessage _ => none
  | .ack => none
  | .pong _ => none

structure ServerEnvelope where
  event : ServerEvent
  clientId : ClientId
  streamId : StreamId
  seqId : Nat
deriving DecidableEq, Repr

def ServerEnvelope.key (envelope : ServerEnvelope) : ClientKey :=
  (envelope.clientId, envelope.streamId)

structure ServerCodec where
  serializedLen : ServerEnvelope → Except String Nat
  toVec : OutgoingMessage → Except String (List UInt8)
  encode : List UInt8 → String
  toPayload : ServerEnvelope → Option String

def internalErrorCode : Int := -32603

def responseSerializationError (id : RequestId) (error : String) : OutgoingMessage :=
  .error id internalErrorCode ("failed to serialize response: " ++ error) none

def divCeil (dividend divisor : Nat) : Nat := (dividend + divisor - 1) / divisor

def buildChunkEnvelope (codec : ServerCodec) (envelope : ServerEnvelope)
    (segmentId segmentCount messageSizeBytes : Nat) (chunk : List UInt8) :
    Except String ServerEnvelope :=
  if segmentCount > remoteControlSegmentCountMax then
    .error "remote-control segment count exceeds maximum"
  else
    .ok { envelope with
      event := .serverMessageChunk segmentId segmentCount messageSizeBytes
        (codec.encode chunk) }

def serializedChunkLen (codec : ServerCodec) (envelope : ServerEnvelope)
    (segmentId segmentCount messageSizeBytes : Nat) (chunk : List UInt8) :
    Except String Nat :=
  match buildChunkEnvelope codec envelope segmentId segmentCount messageSizeBytes chunk with
  | .error error => .error error
  | .ok chunkEnvelope => codec.serializedLen chunkEnvelope

def segmentsFit (codec : ServerCodec) (envelope : ServerEnvelope)
    (segmentCount messageSizeBytes : Nat) (pieces : List (List UInt8)) : Bool :=
  pieces.zipIdx.all fun piece =>
    match serializedChunkLen codec envelope piece.2 segmentCount messageSizeBytes piece.1 with
    | .ok size => decide (size ≤ remoteControlSegmentMaxBytes)
    | .error _ => false

def chunkSizeFor (messageSizeBytes segmentCount : Nat) : Nat :=
  max 1 (divCeil messageSizeBytes segmentCount)

theorem divCeil_le_iff (dividend divisor bound : Nat) (pos : 0 < divisor) :
    divCeil dividend divisor ≤ bound ↔ dividend ≤ bound * divisor := by
  unfold divCeil
  rw [Nat.div_le_iff_le_mul_add_pred pos, Nat.mul_comm divisor bound]
  omega

theorem chunkSizeFor_next_lt {msgSize segCount : Nat} (large : chunkSizeFor msgSize segCount ≠ 1) :
    let chunkSize := chunkSizeFor msgSize segCount
    let next := divCeil msgSize chunkSize + 1
    chunkSizeFor msgSize
        (if chunkSizeFor msgSize next = chunkSize then msgSize
          else next) < chunkSize := by
  intro chunkSize next
  have pos : 0 < chunkSize := by simp only [chunkSize, chunkSizeFor]; omega
  have aboveOne : 1 < chunkSize := by
    have : chunkSize ≠ 1 := large
    omega
  split
  · -- with one segment for each byte the chunks have one byte
    have atMostOne : chunkSizeFor msgSize msgSize ≤ 1 := by
      simp only [chunkSizeFor]
      apply max_le (Nat.le_refl 1)
      rcases Nat.eq_zero_or_pos msgSize with zero | nonzero
      · simp [zero, divCeil]
      · rw [divCeil_le_iff _ _ _ nonzero]
        omega
    omega
  next changed =>
    have covers : msgSize ≤ divCeil msgSize chunkSize * chunkSize :=
      (divCeil_le_iff _ _ _ pos).mp Nat.le.refl
    have enough : msgSize ≤ chunkSize * next := by
      calc msgSize ≤ divCeil msgSize chunkSize * chunkSize := covers
        _ ≤ next * chunkSize := Nat.mul_le_mul_right _ (Nat.le_succ _)
        _ = chunkSize * next := Nat.mul_comm _ _
    have notLarger : chunkSizeFor msgSize next ≤ chunkSize :=
      max_le pos ((divCeil_le_iff _ _ _ (Nat.succ_pos _)).mpr enough)
    omega

/-- The loop that shrinks the chunks until every chunk envelope fits. -/
def splitLoop (codec : ServerCodec) (envelope : ServerEnvelope) (raw : List UInt8)
    (segmentCount : Nat) : Except String (List ServerEnvelope) :=
  let chunkSize := chunkSizeFor raw.length segmentCount
  let fitted := divCeil raw.length chunkSize
  let pieces := chunks chunkSize raw
  if segmentsFit codec envelope fitted raw.length pieces then
    pieces.zipIdx.mapM fun piece =>
      buildChunkEnvelope codec envelope piece.2 fitted raw.length piece.1
  else if large : chunkSizeFor raw.length segmentCount = 1 then .ok []
  else
    splitLoop codec envelope raw
      (if chunkSizeFor raw.length (divCeil raw.length
          (chunkSizeFor raw.length segmentCount) + 1) =
          chunkSizeFor raw.length segmentCount then raw.length
        else divCeil raw.length (chunkSizeFor raw.length segmentCount) + 1)
termination_by chunkSizeFor raw.length segmentCount
decreasing_by exact chunkSizeFor_next_lt large

def splitMessage (codec : ServerCodec) (envelope : ServerEnvelope)
    (message : OutgoingMessage) : Except String (List ServerEnvelope) :=
  match codec.serializedLen envelope with
  | .error error =>
    match message with
    | .response id _ =>
      .ok [{ envelope with
        event := .serverMessage (responseSerializationError id error) }]
    | _ => .error error
  | .ok envelopeSizeBytes =>
    if envelopeSizeBytes ≤ remoteControlSegmentMaxBytes then .ok [envelope]
    else
      match codec.toVec message with
      | .error error => .error error
      | .ok raw =>
        if raw.length > remoteControlReassembledMaxBytes then .ok []
        else
          let minimalSegmentCount := min (max raw.length 1) remoteControlSegmentCountMax
          match serializedChunkLen codec envelope 0 minimalSegmentCount raw.length
              (raw.take 1) with
          | .error error => .error error
          | .ok minimalSize =>
            if minimalSize > remoteControlSegmentMaxBytes then .ok []
            else
              splitLoop codec envelope raw
                (max 2 (divCeil raw.length remoteControlSegmentTargetBytes))

def splitServerEnvelopeForTransport (codec : ServerCodec) (envelope : ServerEnvelope) :
    Except String (List ServerEnvelope) :=
  match envelope.event with
  | .serverMessage message => splitMessage codec envelope message
  | _ => .ok [envelope]

/-- The position of an envelope in its stream; an envelope that was not split
counts as its own segment zero. -/
def ServerEnvelope.cursor (envelope : ServerEnvelope) : Nat × Nat :=
  (envelope.seqId, envelope.event.segmentId.getD 0)

def CursorLe (left right : Nat × Nat) : Prop :=
  left.1 < right.1 ∨ (left.1 = right.1 ∧ left.2 ≤ right.2)

def CursorLt (left right : Nat × Nat) : Prop :=
  left.1 < right.1 ∨ (left.1 = right.1 ∧ left.2 < right.2)

instance (left right : Nat × Nat) : Decidable (CursorLe left right) :=
  inferInstanceAs (Decidable (left.1 < right.1 ∨ (left.1 = right.1 ∧ left.2 ≤ right.2)))

instance (left right : Nat × Nat) : Decidable (CursorLt left right) :=
  inferInstanceAs (Decidable (left.1 < right.1 ∨ (left.1 = right.1 ∧ left.2 < right.2)))

/-- The pieces belong to the stream and the sequence id of the envelope and
their cursors increase strictly. -/
structure SplitOf (envelope : ServerEnvelope) (pieces : List ServerEnvelope) : Prop where
  key : ∀ piece ∈ pieces, piece.key = envelope.key
  seqId : ∀ piece ∈ pieces, piece.seqId = envelope.seqId
  increasing : pieces.Pairwise fun earlier later => CursorLt earlier.cursor later.cursor

variable (envelope : ServerEnvelope)

theorem splitOf_nil : SplitOf envelope [] :=
  ⟨by simp, by simp, List.Pairwise.nil⟩

theorem splitOf_singleton {envelope piece : ServerEnvelope}
    (key : piece.key = envelope.key) (seqId : piece.seqId = envelope.seqId) :
    SplitOf envelope [piece] :=
  ⟨by simpa using key, by simpa using seqId, by simp⟩

theorem SplitOf.filter {envelope : ServerEnvelope} {pieces : List ServerEnvelope}
    (split : SplitOf envelope pieces) (keep : ServerEnvelope → Bool) :
    SplitOf envelope (pieces.filter keep) where
  key := fun piece mem => split.key piece (mem_of_mem_filter mem)
  seqId := fun piece mem => split.seqId piece (mem_of_mem_filter mem)
  increasing := split.increasing.filter keep

variable (codec : ServerCodec)

variable {codec} in
theorem buildChunkEnvelope_ok {envelope piece : ServerEnvelope}
    {segmentId segCount msgSize : Nat} {chunk : List UInt8}
    (built : buildChunkEnvelope codec envelope segmentId segCount msgSize
    chunk = .ok piece) : piece.key = envelope.key ∧ piece.cursor = (envelope.seqId, segmentId) := by
  unfold buildChunkEnvelope at built
  split at built
  · contradiction
  · cases Except.ok.inj built
    exact ⟨rfl, rfl⟩

theorem buildChunks_splitOf (envelope : ServerEnvelope)
    (segCount msgSize : Nat) (pieces : List (List UInt8)) :
    ∀ (first : Nat) (built : List ServerEnvelope),
    (pieces.zipIdx first).mapM (fun piece => buildChunkEnvelope codec envelope
    piece.2 segCount msgSize piece.1) = Except.ok built →
    SplitOf envelope built ∧ ∀ piece ∈ built, first ≤ piece.cursor.2 := by
  induction pieces with
  | nil =>
    intro first built run
    cases Except.ok.inj run
    exact ⟨splitOf_nil envelope, by simp⟩
  | cons chunk rest ih =>
    intro first built run
    rw [zipIdx_cons, mapM_cons] at run
    cases headRun : buildChunkEnvelope codec envelope first segCount msgSize chunk with
    | error error =>
      simp only [headRun] at run
      contradiction
    | ok head =>
      simp only [headRun] at run
      cases restRun : (rest.zipIdx (first + 1)).mapM (fun piece =>
        buildChunkEnvelope codec envelope piece.2 segCount msgSize piece.1) with
      | error error =>
        rw [restRun] at run
        contradiction
      | ok later =>
        rw [restRun] at run
        cases Except.ok.inj run
        obtain ⟨split, lower⟩ := ih (first + 1) later restRun
        obtain ⟨headKey, headCursor⟩ := buildChunkEnvelope_ok headRun
        have headSeq : head.seqId = envelope.seqId :=
          congrArg Prod.fst headCursor
        refine ⟨⟨?_, ?_, ?_⟩, ?_⟩
        · simpa [headKey] using split.key
        · simpa [headSeq] using split.seqId
        · refine pairwise_cons.mpr ⟨?_, split.increasing⟩
          intro piece mem
          have pieceSeq : piece.cursor.1 = envelope.seqId := split.seqId piece mem
          have pieceLower := lower piece mem
          refine .inr ⟨?_, ?_⟩
          · rw [headCursor, pieceSeq]
          · rw [headCursor]
            exact pieceLower
        · intro piece mem
          rcases mem_cons.mp mem with rfl | mem
          · rw [headCursor]
          · exact Nat.le_of_succ_le (lower piece mem)

theorem splitLoop_splitOf (envelope : ServerEnvelope)
    (raw : List UInt8) (segCount : Nat) (pieces : List ServerEnvelope)
    (run : splitLoop codec envelope raw segCount = .ok pieces) : SplitOf envelope pieces := by
  fun_induction splitLoop codec envelope raw segCount with
  | case1 segCount chunkSize fitted cut fits =>
    exact (buildChunks_splitOf codec envelope fitted raw.length cut 0 pieces run).1
  | case2 segCount chunkSize fitted cut unfit single =>
    cases Except.ok.inj run
    exact splitOf_nil envelope
  | case3 segCount chunkSize fitted cut unfit large ih => exact ih run

theorem splitMessage_splitOf (envelope : ServerEnvelope)
    (msg : OutgoingMessage) (pieces : List ServerEnvelope)
    (run : splitMessage codec envelope msg = .ok pieces) : SplitOf envelope pieces := by
  simp only [splitMessage] at run
  split at run
  · -- the envelope cannot be serialized
    split at run
    · cases Except.ok.inj run
      exact splitOf_singleton rfl rfl
    · contradiction
  · split at run
    · cases Except.ok.inj run
      exact splitOf_singleton rfl rfl
    · split at run
      · contradiction
      · split at run
        · cases Except.ok.inj run
          exact splitOf_nil envelope
        · split at run
          · contradiction
          · split at run
            · cases Except.ok.inj run
              exact splitOf_nil envelope
            · exact splitLoop_splitOf codec envelope _ _ pieces run

theorem split_splitOf (envelope : ServerEnvelope) (pieces : List ServerEnvelope)
    (run : splitServerEnvelopeForTransport codec envelope = .ok pieces) :
    SplitOf envelope pieces := by
  unfold splitServerEnvelopeForTransport at run
  split at run
  · exact splitMessage_splitOf codec envelope _ pieces run
  · cases Except.ok.inj run
    exact splitOf_singleton rfl rfl

end CodexFormal.RemoteControl
