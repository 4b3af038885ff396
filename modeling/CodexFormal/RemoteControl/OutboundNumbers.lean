import CodexFormal.RemoteControl.OutboundReplay

/-!
# The numbers of a stream's messages

The writer numbers the messages of a stream from one on.  A message that cannot
be split takes no number; one that is too large is dropped after it has taken its
number, so the next message that is sent leaves a gap.
-/

set_option autoImplicit false

namespace CodexFormal.RemoteControl

open List

structure QueuedServerEnvelope where
  event : ServerEvent
  clientId : ClientId
  streamId : StreamId

def QueuedServerEnvelope.key (queued : QueuedServerEnvelope) : ClientKey :=
  (queued.clientId, queued.streamId)

/-- The loop of the writer: the envelopes that each queued event puts into the buffer and
on the socket. -/
def writeQueued (codec : ServerCodec) :
    WebsocketState → List QueuedServerEnvelope → List (List ServerEnvelope)
  | _, [] => []
  | state, queued :: rest =>
    let written := state.assignAndInsert codec queued.event queued.clientId queued.streamId
    written.2.getD [] :: writeQueued codec written.1 rest

variable (key : ClientKey)

def messageNumbers (sent : List (List ServerEnvelope)) : List Nat :=
  sent.flatMap fun pieces =>
    ((pieces.filter fun piece => piece.key = key).map ServerEnvelope.seqId).dedup

variable (codec : ServerCodec)

/-- What an envelope is transported as, or nothing where it cannot be split. -/
def transported (envelope : ServerEnvelope) : Option (List ServerEnvelope) :=
  match splitServerEnvelopeForTransport codec envelope with
  | .error _ => none
  | .ok pieces => some (pieces.filter fun piece => (codec.toPayload piece).isSome)

/-- No message of the stream is sent once a number was spent in vain: on a message that was
dropped, or twice because it is the greatest one. -/
def NoneSentAfterDropped (codec : ServerCodec) (key : ClientKey) :
    Nat → Bool → List QueuedServerEnvelope → Prop
  | _, _, [] => True
  | next, spent, queued :: rest =>
    if queued.key = key then
      match transported codec ⟨queued.event, queued.clientId, queued.streamId, next⟩ with
      | none => NoneSentAfterDropped codec key next spent rest
      | some [] =>
        NoneSentAfterDropped codec key (min (next + 1) u64Max) (spent || next != u64Max) rest
      | some (_ :: _) =>
        spent = false ∧
          NoneSentAfterDropped codec key (min (next + 1) u64Max) (next == u64Max) rest
    else NoneSentAfterDropped codec key next spent rest

theorem transported_eq (state : WebsocketState) (codec : ServerCodec)
    (queued : QueuedServerEnvelope) :
    (state.assignAndInsert codec queued.event queued.clientId queued.streamId).2 =
    transported codec ⟨queued.event, queued.clientId, queued.streamId,
    state.nextSeqId queued.key⟩ := by
  simp only [WebsocketState.assignAndInsert, transported, WebsocketState.nextSeqId,
    QueuedServerEnvelope.key]
  split <;> simp_all

theorem SplitOf.numbers {envelope : ServerEnvelope} {pieces : List ServerEnvelope}
    (split : SplitOf envelope pieces) (ne : pieces ≠ []) (key : ClientKey) :
    ((pieces.filter fun piece => piece.key = key).map ServerEnvelope.seqId).dedup =
    if envelope.key = key then [envelope.seqId] else [] := by
  by_cases isKey : envelope.key = key
  · have all : (pieces.filter fun piece => piece.key = key) = pieces := by
      rw [filter_eq_self]
      intro piece mem
      simp [split.key piece mem, isKey]
    have numbers : pieces.map ServerEnvelope.seqId =
        List.replicate pieces.length envelope.seqId := by
      rw [map_eq_replicate_iff]
      exact split.seqId
    rw [all, numbers, if_pos isKey, replicate_dedup (Nat.ne_of_gt (length_pos_iff.2 ne))]
  · have none : (pieces.filter fun piece => piece.key = key) = [] := by
      rw [filter_eq_nil_iff]
      intro piece mem
      simp [split.key piece mem, isKey]
    rw [none, if_neg isKey]
    rfl

/-- A counter of a stream after `sent` messages were sent: a number was spent in vain unless
the counter is at the next one. -/
structure CountsSent (next sent : Nat) (spent : Bool) : Prop where
  bounded : next ≤ u64Max
  ahead : sent + 1 ≤ next ∨ next = u64Max
  spent_iff : spent = false ↔ next = sent + 1

variable {next sent : Nat} {spent : Bool}

theorem CountsSent.dropped (counts : CountsSent next sent spent) :
    CountsSent (min (next + 1) u64Max) sent (spent || next != u64Max) := by
  obtain ⟨bounded, ahead, spentIff⟩ := counts
  refine ⟨Nat.min_le_right _ _, by omega, ?_⟩
  rw [Bool.or_eq_false_iff, spentIff, bne_eq_false_iff_eq]
  omega

theorem CountsSent.sentNext (counts : CountsSent next sent spent) (isNext : next = sent + 1) :
    CountsSent (min (next + 1) u64Max) (sent + 1) (next == u64Max) := by
  have bounded := counts.bounded
  refine ⟨Nat.min_le_right _ _, by omega, ?_⟩
  rw [beq_eq_false_iff_ne]
  omega

theorem writeQueued_gapless_iff (key : ClientKey)
    (events : List QueuedServerEnvelope) (state : WebsocketState)
    (counts : CountsSent (state.nextSeqId key) sent spent) :
    messageNumbers key (writeQueued codec state events) =
    List.range' (sent + 1) (messageNumbers key (writeQueued codec state events)).length ↔
    NoneSentAfterDropped codec key (state.nextSeqId key) spent events := by
  induction events generalizing state sent spent with
  | nil => simp [writeQueued, messageNumbers, NoneSentAfterDropped]
  | cons queued rest ih =>
    have res := transported_eq state codec queued
    have effect := assignAndInsert_spec state codec queued.event queued.clientId queued.streamId
    simp only [writeQueued, messageNumbers, flatMap_cons, NoneSentAfterDropped]
    generalize state.assignAndInsert codec queued.event queued.clientId queued.streamId =
      wrote at res effect ⊢
    change (_ ++ messageNumbers key (writeQueued codec wrote.1 rest) = List.range' _
      (_ ++ messageNumbers key (writeQueued codec wrote.1 rest)).length) ↔ _
    by_cases isKey : queued.key = key
    · subst isKey
      rw [if_pos rfl, ← res]
      rcases effect with ⟨isNone, _, counter⟩ | ⟨envs, isSome, split, _, counter⟩
      · rw [isNone, ← counter]
        exact ih wrote.1 (counter queued.key ▸ counts)
      · have next : wrote.1.nextSeqId queued.key = min (state.nextSeqId queued.key + 1) u64Max :=
          (counter queued.key).trans (if_pos rfl)
        rw [isSome, Option.getD_some]
        cases envs with
        | nil =>
          have later := ih wrote.1 (next ▸ counts.dropped)
          rwa [next] at later
        | cons first more =>
          have num := split.numbers (cons_ne_nil _ _) queued.key
          rw [if_pos (show ServerEnvelope.key ⟨_, _, _, _⟩ = queued.key from rfl)] at num
          rw [num, singleton_append, length_cons, range'_succ, List.cons.injEq, counts.spent_iff]
          refine and_congr_right fun isNext => ?_
          have later := ih wrote.1 (next ▸ counts.sentNext isNext)
          rwa [next] at later
    · rw [if_neg isKey]
      rcases effect with ⟨isNone, _, counter⟩ | ⟨envs, isSome, split, _, counter⟩
      · rw [isNone, ← counter]
        exact ih wrote.1 (counter key ▸ counts)
      · have same : wrote.1.nextSeqId key = state.nextSeqId key :=
          (counter key).trans (if_neg isKey)
        have silent : ((envs.filter fun piece => piece.key = key).map
            ServerEnvelope.seqId).dedup = [] := by
          rcases envs with _ | ⟨first, more⟩
          · rfl
          · exact (split.numbers (cons_ne_nil _ _) key).trans (if_neg isKey)
        rw [isSome, Option.getD_some, silent, ← same]
        exact ih wrote.1 (same ▸ counts)

theorem countsSent_new : CountsSent (WebsocketState.new.nextSeqId key) 0 false :=
  ⟨show 1 ≤ u64Max by decide, .inl (Nat.le_refl 1), iff_of_true rfl rfl⟩

theorem messageNumbers_gapless_iff (codec : ServerCodec) (events : List QueuedServerEnvelope)
    (key : ClientKey) :
    messageNumbers key (writeQueued codec .new events) =
        List.range' 1 (messageNumbers key (writeQueued codec .new events)).length ↔
      NoneSentAfterDropped codec key 1 false events :=
  writeQueued_gapless_iff codec key events .new (countsSent_new key)

theorem transported_oversized {codec : ServerCodec} {envelope : ServerEnvelope}
    {msg : OutgoingMessage} {size : Nat} {raw : List UInt8}
    (isMessage : envelope.event = .serverMessage msg)
    (measured : codec.serializedLen envelope = .ok size)
    (tooLong : remoteControlSegmentMaxBytes < size) (serialized : codec.toVec msg = .ok raw)
    (tooLarge : raw.length > remoteControlReassembledMaxBytes) :
    transported codec envelope = some [] := by
  simp only [transported, splitServerEnvelopeForTransport, isMessage, splitMessage, measured,
    if_neg (Nat.not_le_of_lt tooLong), serialized, if_pos tooLarge, filter_nil]

theorem not_gapless_of_dropped {codec : ServerCodec} {first second : QueuedServerEnvelope}
    {piece : ServerEnvelope} {more : List ServerEnvelope} (sameStream : second.key = first.key)
    (dropped : transported codec ⟨first.event, first.clientId, first.streamId, 1⟩ = some [])
    (isSent : transported codec ⟨second.event, second.clientId, second.streamId, 2⟩ =
    some (piece :: more)) : messageNumbers first.key (writeQueued codec .new [first, second]) ≠
    List.range' 1 (messageNumbers first.key (writeQueued codec .new [first, second])).length := by
  rw [Ne, writeQueued_gapless_iff codec first.key _ .new (countsSent_new _),
    show WebsocketState.new.nextSeqId first.key = 1 from rfl]
  have next : min (1 + 1) u64Max = 2 := by decide
  have spent : (1 != u64Max) = true := by decide
  simp [NoneSentAfterDropped, sameStream, dropped, isSent, next, spent]

/-- A request is longer than what can be put together again by the length of its body. -/
def oversizedCodec : ServerCodec :=
  { pongCodec with
    serializedLen := fun _ => .ok (remoteControlSegmentMaxBytes + 1)
    toVec := fun message =>
      match message with
      | .request body => .ok (List.replicate (remoteControlReassembledMaxBytes + body.length) 0)
      | _ => .ok [] }

def oversizedRequest : QueuedServerEnvelope :=
  ⟨.serverMessage (.request "x"), pongClient, pongStream⟩

def queuedPong : QueuedServerEnvelope := ⟨.pong .active, pongClient, pongStream⟩

/-- The request is dropped and takes the number one with it. -/
theorem oversized_message_leaves_gap :
    messageNumbers oversizedRequest.key
        (writeQueued oversizedCodec .new [oversizedRequest, queuedPong]) ≠
      List.range' 1 (messageNumbers oversizedRequest.key
        (writeQueued oversizedCodec .new [oversizedRequest, queuedPong])).length := by
  have dropped : transported oversizedCodec ⟨oversizedRequest.event, oversizedRequest.clientId,
      oversizedRequest.streamId, 1⟩ = some [] := by
    apply transported_oversized rfl rfl (Nat.lt_succ_self _) rfl
    rw [length_replicate]
    exact Nat.lt_add_of_pos_right Nat.one_pos
  have same : queuedPong.key = oversizedRequest.key := rfl
  have isSent : transported oversizedCodec ⟨queuedPong.event, queuedPong.clientId,
    queuedPong.streamId, 2⟩ = some [pongEnvelope 2] := rfl
  exact not_gapless_of_dropped same dropped isSent

end CodexFormal.RemoteControl
