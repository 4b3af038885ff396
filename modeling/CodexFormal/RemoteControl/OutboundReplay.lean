import CodexFormal.RemoteControl.Websocket

/-!
# What the outbound buffer holds

The writer, the reader's acknowledgements and reconnects interleave in any
order.  The history of a run says which sequence ids were assigned, which
envelopes were buffered and which cursors were acknowledged; the buffer holds,
for each stream, the envelopes of the history that no later acknowledgement
covers.
-/

set_option autoImplicit false

namespace CodexFormal.RemoteControl

open Foundation List BoundedOutboundBuffer

inductive OutboundStep where
  | write (event : ServerEvent) (clientId : ClientId) (streamId : StreamId)
  | record (envelope : ClientEnvelope)
  | reconnect

inductive OutboundEvent where
  | assigned (key : ClientKey)
  | inserted (envelope : ServerEnvelope)
  | acked (key : ClientKey) (cursor : Nat × Nat)
  | replayed (envelope : ServerEnvelope)
deriving DecidableEq, Repr

variable (key : ClientKey)

def writeEvents : Option (List ServerEnvelope) → List OutboundEvent
  | some envelopes => .assigned key :: envelopes.map .inserted
  | none => []

def ackEvents (envelope : ClientEnvelope) : List OutboundEvent :=
  match envelope.acknowledges with
  | some (key, ackedSeqId, ackedSegmentId) =>
    [.acked key (ackedCursor ackedSeqId ackedSegmentId)]
  | none => []

/-- The writer takes a queued event only while the buffer has capacity. -/
def outboundStep (codec : ServerCodec) (state : WebsocketState) :
    OutboundStep → Option (WebsocketState × List OutboundEvent)
  | .write event clientId streamId =>
    if state.outboundBuffer.used < channelCapacity then
      let written := state.assignAndInsert codec event clientId streamId
      some (written.1, writeEvents (clientId, streamId) written.2)
    else none
  | .record envelope =>
    (state.recordClientMessageDelivery envelope
      (WebsocketState.clientMessageKey envelope)).map fun recorded =>
        (recorded, ackEvents envelope)
  | .reconnect => some (state, (state.replayed codec).map .replayed)

def outboundMachine (codec : ServerCodec) : Machine WebsocketState OutboundStep OutboundEvent :=
  ⟨outboundStep codec⟩

variable (history : List OutboundEvent)

def assignedCount : Nat :=
  history.count (.assigned key)

def OutboundEvent.insertedOn : OutboundEvent → Option ServerEnvelope
  | .inserted envelope => if envelope.key = key then some envelope else none
  | _ => none

def insertedOn : List ServerEnvelope :=
  history.filterMap (OutboundEvent.insertedOn key)

def OutboundEvent.covers (envelope : ServerEnvelope) : OutboundEvent → Bool
  | .acked key cursor => decide (key = envelope.key ∧ CursorLe envelope.cursor cursor)
  | _ => false

/-- The envelopes of one stream that were inserted and not acknowledged since. -/
def unacknowledged (key : ClientKey) : List OutboundEvent → List ServerEnvelope
  | [] => []
  | .inserted envelope :: later =>
    if envelope.key = key ∧ ¬ later.any (OutboundEvent.covers envelope) then
      envelope :: unacknowledged key later
    else unacknowledged key later
  | _ :: later => unacknowledged key later

variable (key : ClientKey) (history more : List OutboundEvent)

open OutboundEvent

theorem unacknowledged_append : unacknowledged key (history ++ more) =
    (unacknowledged key history).filter (fun envelope => !more.any (covers envelope)) ++
    unacknowledged key more := by
  induction history with
  | nil => rfl
  | cons event rest ih =>
    cases event with
    | inserted envelope =>
      simp only [cons_append, unacknowledged, any_append, ih]
      by_cases mine : envelope.key = key
      · by_cases covered : rest.any (covers envelope)
        · simp [mine, covered]
        · by_cases coveredLater : more.any (covers envelope)
          · simp [mine, covered, coveredLater]
          · simp [mine, covered, coveredLater]
      · simp [mine]
    | _ => exact ih

theorem unacknowledged_sublist (history : List OutboundEvent) :
    (unacknowledged key history).Sublist (insertedOn key history) := by
  induction history with
  | nil => exact List.Sublist.refl _
  | cons event rest ih =>
    cases event with
    | inserted envelope =>
      by_cases mine : envelope.key = key
      · have head : insertedOn key (.inserted envelope :: rest) =
            envelope :: insertedOn key rest := by
          simp [insertedOn, OutboundEvent.insertedOn, mine]
        rw [head, unacknowledged]
        split
        · exact ih.cons_cons envelope
        · exact ih.cons envelope
      · have skipped : insertedOn key (.inserted envelope :: rest) = insertedOn key rest := by
          simp [insertedOn, OutboundEvent.insertedOn, mine]
        rw [skipped, unacknowledged, if_neg (fun both => mine both.1)]
        exact ih
    | _ => exact ih

theorem insertedOn_append :
    insertedOn key (history ++ more) = insertedOn key history ++ insertedOn key more :=
  filterMap_append

theorem assignedCount_append : assignedCount key (history ++ more) =
      assignedCount key history + assignedCount key more :=
  count_append

theorem writeEvents_spec (key target : ClientKey) (envs : List ServerEnvelope)
    (sameKey : ∀ envelope ∈ envs, envelope.key = target) :
    let events := writeEvents target (some envs)
    assignedCount key events = (if target = key then 1 else 0) ∧
      insertedOn key events = (if target = key then envs else []) ∧
        unacknowledged key events = insertedOn key events ∧
          ∀ envelope, events.any (OutboundEvent.covers envelope) = false := by
  have bare : ∀ (others : List ServerEnvelope) (envelope : ServerEnvelope),
      (others.map OutboundEvent.inserted).any (OutboundEvent.covers envelope) = false := by
    intro others envelope
    simp [OutboundEvent.covers]
  have unassigned : (envs.map OutboundEvent.inserted).count (.assigned key) = 0 := by
    simp [count_eq_zero]
  refine ⟨?_, ?_, ?_, ?_⟩
  · simp [writeEvents, assignedCount, unassigned, count_cons]
  · have assignedSkipped : insertedOn key (writeEvents target (some envs)) =
      insertedOn key (envs.map .inserted) := rfl
    rw [assignedSkipped]
    clear unassigned assignedSkipped
    induction envs with
    | nil => simp [insertedOn]
    | cons envelope rest ih =>
      have restInserted := ih fun other mem =>
        sameKey other (mem_cons_of_mem _ mem)
      have headKey := sameKey envelope mem_cons_self
      simp only [insertedOn, map_cons, filterMap_cons,
        OutboundEvent.insertedOn, headKey] at restInserted ⊢
      split <;> simp_all
  · show unacknowledged key (envs.map .inserted) = insertedOn key (envs.map .inserted)
    clear unassigned sameKey
    induction envs with
    | nil => rfl
    | cons envelope rest ih =>
      by_cases mine : envelope.key = key
      · simp [unacknowledged, bare, mine, ih, insertedOn, OutboundEvent.insertedOn]
      · simp [unacknowledged, bare, mine, ih, insertedOn, OutboundEvent.insertedOn]
  · intro envelope
    simp [writeEvents, OutboundEvent.covers]

theorem any_covers_iff (envelope : ServerEnvelope) (events : List OutboundEvent) :
    events.any (covers envelope) = true ↔
    ∃ cursor, .acked envelope.key cursor ∈ events ∧ CursorLe envelope.cursor cursor := by
  rw [any_eq_true]
  constructor
  · rintro ⟨event, mem, covers⟩
    cases event with
    | acked key cursor =>
      obtain ⟨rfl, below⟩ := of_decide_eq_true covers
      exact ⟨cursor, mem, below⟩
    | _ => contradiction
  · rintro ⟨cursor, mem, below⟩
    exact ⟨_, mem, decide_eq_true ⟨rfl, below⟩⟩

theorem cursorLt_irrefl (cursor : Nat × Nat) : ¬ CursorLt cursor cursor := by
  unfold CursorLt
  omega

/-- In a history of increasing cursors an envelope is inserted once, so it is
missing exactly when something after that insertion covers it. -/
theorem not_mem_unacknowledged_iff {pre after : List OutboundEvent} {envelope : ServerEnvelope}
    (increasing : (insertedOn envelope.key (pre ++ .inserted envelope :: after)).Pairwise
    fun earlier later => CursorLt earlier.cursor later.cursor) :
    envelope ∉ unacknowledged envelope.key (pre ++ .inserted envelope :: after) ↔
    ∃ cursor, .acked envelope.key cursor ∈ after ∧ CursorLe envelope.cursor cursor := by
  have head : insertedOn envelope.key (.inserted envelope :: after) =
      envelope :: insertedOn envelope.key after := by
    simp [insertedOn, OutboundEvent.insertedOn]
  rw [insertedOn_append, head, pairwise_append, pairwise_cons] at increasing
  obtain ⟨_, ⟨above, _⟩, _⟩ := increasing
  have notLater : envelope ∉ unacknowledged envelope.key after := by
    intro mem
    exact cursorLt_irrefl _ (above envelope ((unacknowledged_sublist _ after).subset mem))
  rw [← any_covers_iff, unacknowledged_append, unacknowledged]
  by_cases covered : after.any (OutboundEvent.covers envelope)
  · simp [covered, notLater, OutboundEvent.covers]
  · simp [covered]

/-- The counter of a stream, which starts at one. -/
def WebsocketState.nextSeqId (state : WebsocketState) (key : ClientKey) : Nat :=
  (state.nextSeqIdByStream.lookup key).getD 1

structure OutboundInvariant (history : List OutboundEvent) (state : WebsocketState) : Prop where
  counted : state.outboundBuffer.Counted
  holds : ∀ key, state.outboundBuffer.buffered key = unacknowledged key history
  counter : ∀ key, state.nextSeqId key = min (assignedCount key history + 1) u64Max
  numbered : ∀ key, ∀ envelope ∈ insertedOn key history,
    envelope.seqId ≤ assignedCount key history
  increasing : ∀ key, assignedCount key history ≤ u64Max →
    (insertedOn key history).Pairwise fun earlier later =>
      CursorLt earlier.cursor later.cursor

theorem outboundInvariant_new : OutboundInvariant [] .new where
  counted := new_counted
  holds := fun _ => rfl
  counter := fun _ => rfl
  numbered := by simp [insertedOn]
  increasing := by simp [insertedOn]

variable {history : List OutboundEvent} {state : WebsocketState}

/-- An event list without assignments and insertions only has to account for
the envelopes it acknowledges. -/
theorem OutboundInvariant.quiet
    (inv : OutboundInvariant history state) (events : List OutboundEvent)
    (after : WebsocketState) (counted : after.outboundBuffer.Counted)
    (counter : ∀ key, after.nextSeqId key = state.nextSeqId key)
    (assigned : ∀ key, assignedCount key events = 0) (inserted : ∀ key, insertedOn key events = [])
    (kept : ∀ key, after.outboundBuffer.buffered key =
      (state.outboundBuffer.buffered key).filter fun envelope => !events.any (covers envelope)) :
    OutboundInvariant (history ++ events) after where
  counted := counted
  holds := by
    intro key
    have nothing : unacknowledged key events = [] :=
      sublist_nil.mp (inserted key ▸ unacknowledged_sublist key events)
    rw [unacknowledged_append, kept, inv.holds, nothing, append_nil]
  counter := by
    intro key
    rw [counter, inv.counter, assignedCount_append, assigned, Nat.add_zero]
  numbered := by
    intro key
    rw [insertedOn_append, inserted, append_nil, assignedCount_append, assigned, Nat.add_zero]
    exact inv.numbered key
  increasing := by
    intro key
    rw [insertedOn_append, inserted, append_nil, assignedCount_append, assigned, Nat.add_zero]
    exact inv.increasing key

open WebsocketState

/-- A write either skips the event, or buffers the pieces of a split that
carries the next sequence id of the stream. -/
theorem assignAndInsert_spec (state : WebsocketState) (codec : ServerCodec)
    (event : ServerEvent) (clientId : ClientId) (streamId : StreamId) :
    let target := (clientId, streamId)
    let seqId := state.nextSeqId target
    let wrote := state.assignAndInsert codec event clientId streamId
    (wrote.2 = none ∧ wrote.1.outboundBuffer = state.outboundBuffer ∧
        ∀ key, wrote.1.nextSeqId key = state.nextSeqId key) ∨ ∃ envs, wrote.2 = some envs ∧
        SplitOf ⟨event, clientId, streamId, seqId⟩ envs ∧ wrote.1.outboundBuffer =
          envs.foldl insert state.outboundBuffer ∧ ∀ key, wrote.1.nextSeqId key =
          if target = key then min (seqId + 1) u64Max else state.nextSeqId key := by
  intro target seqId wrote
  simp only [wrote, assignAndInsert]
  cases split : splitServerEnvelopeForTransport codec ⟨event, clientId, streamId,
    (state.nextSeqIdByStream.lookup (clientId, streamId)).getD 1⟩ with
  | error error =>
    refine .inl ⟨rfl, rfl, ?_⟩
    intro key
    simp only [nextSeqId, FiniteMap.lookup_insert_eq_ite]
    by_cases same : key = (clientId, streamId)
    · subst same
      simp
    · simp [same]
  | ok envs =>
    refine .inr ⟨_, rfl, (split_splitOf codec _ envs split).filter _, rfl, ?_⟩
    intro key
    simp only [nextSeqId, FiniteMap.lookup_insert_eq_ite, target, seqId]
    by_cases same : key = (clientId, streamId)
    · simp [same]
    · simp [same, Ne.symm same]

theorem OutboundInvariant.buffer (inv : OutboundInvariant history state) (after : WebsocketState)
    (whole : ServerEnvelope) (envs : List ServerEnvelope) (split : SplitOf whole envs)
    (next : whole.seqId = state.nextSeqId whole.key) (newBuffer : after.outboundBuffer =
      envs.foldl insert state.outboundBuffer) (newCounter : ∀ key, after.nextSeqId key =
      if whole.key = key then min (state.nextSeqId whole.key + 1) u64Max else state.nextSeqId key) :
    OutboundInvariant (history ++ writeEvents whole.key (some envs)) after where
  counted := by
    rw [newBuffer]
    exact insertAll_counted envs _ inv.counted
  holds := by
    intro key
    obtain ⟨_, inserted, isWhole, bare⟩ :=
      writeEvents_spec key whole.key envs split.key
    rw [newBuffer, insertAll_buffered, unacknowledged_append, isWhole, inserted, inv.holds]
    simp only [bare, Bool.not_false, filter_true]
    congr 1
    split_ifs with mine
    · refine filter_eq_self.mpr fun envelope mem => ?_
      exact decide_eq_true ((split.key envelope mem).trans mine)
    · refine filter_eq_nil_iff.mpr fun envelope mem => ?_
      exact fun same => mine ((split.key envelope mem).symm.trans (of_decide_eq_true same))
  counter := by
    intro key
    obtain ⟨assigned, _⟩ := writeEvents_spec key whole.key envs split.key
    rw [newCounter, assignedCount_append, assigned]
    split_ifs with mine
    · subst mine
      rw [inv.counter]
      omega
    · exact inv.counter key
  numbered := by
    intro key envelope mem
    obtain ⟨assigned, inserted, _⟩ := writeEvents_spec key whole.key envs split.key
    rw [assignedCount_append, assigned]
    rw [insertedOn_append, inserted, mem_append] at mem
    rcases mem with old | new
    · have := inv.numbered key envelope old
      omega
    · split_ifs at new ⊢ with mine
      · subst mine
        rw [split.seqId envelope new, next, inv.counter]
        exact Nat.min_le_left _ _
      · contradiction
  increasing := by
    intro key few
    obtain ⟨assigned, inserted, _⟩ := writeEvents_spec key whole.key envs split.key
    rw [assignedCount_append, assigned] at few
    rw [insertedOn_append, inserted]
    split_ifs at few ⊢ with mine
    · subst mine
      refine pairwise_append.mpr ⟨inv.increasing _ (by omega), split.increasing, ?_⟩
      intro old oldMem new newMem
      -- the counter has not saturated, so the new id is above all earlier ones
      have oldSeq := inv.numbered _ old oldMem
      have newSeq := split.seqId new newMem
      rw [next, inv.counter] at newSeq
      refine .inl ?_
      show old.seqId < new.seqId
      omega
    · rw [append_nil]
      exact inv.increasing key (by omega)

theorem OutboundInvariant.write (inv : OutboundInvariant history state) (codec : ServerCodec)
    (event : ServerEvent) (clientId : ClientId) (streamId : StreamId) :
    let wrote := state.assignAndInsert codec event clientId streamId
    OutboundInvariant (history ++ writeEvents (clientId, streamId) wrote.2) wrote.1 := by
  intro wrote
  rcases assignAndInsert_spec state codec event clientId streamId with
    ⟨skipped, sameBuffer, sameCounter⟩ | ⟨envs, buffered, split, newBuffer, newCounter⟩
  · rw [show wrote.2 = none from skipped]
    apply inv.quiet
    · exact sameBuffer ▸ inv.counted
    · exact sameCounter
    · exact fun _ => rfl
    · exact fun _ => rfl
    · intro key
      simp [wrote, sameBuffer, writeEvents]
  · rw [show wrote.2 = some envs from buffered]
    exact inv.buffer wrote.1 _ envs split rfl newBuffer newCounter

theorem OutboundInvariant.record (inv : OutboundInvariant history state) (envelope : ClientEnvelope)
    (messageKey : Option ((ClientId × Option StreamId) × Nat)) :
    ∃ after, state.recordClientMessageDelivery envelope messageKey = some after ∧
    OutboundInvariant (history ++ ackEvents envelope) after := by
  simp only [recordClientMessageDelivery, ackEvents]
  cases acknowledged : envelope.acknowledges with
  | none =>
    refine ⟨_, rfl, ?_⟩
    apply inv.quiet
    · exact inv.counted
    · exact fun _ => rfl
    · exact fun _ => rfl
    · exact fun _ => rfl
    · simp
  | some acked =>
    obtain ⟨key, ackedSeqId, ackedId⟩ := acked
    obtain ⟨buffer, run, counted, kept⟩ := ack_spec
      state.outboundBuffer key ackedSeqId ackedId inv.counted
    simp only [run, Option.map_some]
    refine ⟨_, rfl, ?_⟩
    apply inv.quiet
    · exact counted
    · exact fun _ => rfl
    · intro other
      simp [assignedCount]
    · exact fun _ => rfl
    · intro other
      rw [kept]
      apply filter_congr
      intro envelope mem
      have ofStream : envelope.key = other := by
        rw [inv.holds] at mem
        have inserted := (unacknowledged_sublist other history).subset mem
        obtain ⟨event, _, found⟩ := mem_filterMap.mp inserted
        cases event <;> simp [OutboundEvent.insertedOn] at found
        exact found.2 ▸ found.1
      simp [covers, ofStream, eq_comm]

theorem OutboundInvariant.reconnect
    (inv : OutboundInvariant history state) (envs : List ServerEnvelope) :
    OutboundInvariant (history ++ envs.map .replayed) state := by
  apply inv.quiet
  · exact inv.counted
  · exact fun _ => rfl
  · intro key
    simp [assignedCount, count_eq_zero]
  · intro key
    simp [insertedOn, OutboundEvent.insertedOn]
  · intro key
    refine (filter_eq_self.mpr fun envelope _ => ?_).symm
    simp [any_map, OutboundEvent.covers]

theorem outboundStep_invariant {codec : ServerCodec} {history : List OutboundEvent}
    {state : WebsocketState} {label : OutboundStep} {after : WebsocketState}
    {events : List OutboundEvent} (inv : OutboundInvariant history state)
    (ran : (outboundMachine codec).step state label = some (after, events)) :
    OutboundInvariant (history ++ events) after := by
  cases label with
  | write event clientId streamId =>
    simp only [outboundMachine, outboundStep] at ran
    split at ran
    · cases Option.some.inj ran
      exact inv.write codec event clientId streamId
    · contradiction
  | record envelope =>
    obtain ⟨recorded, run, recordedInvariant⟩ := inv.record envelope (clientMessageKey envelope)
    simp only [outboundMachine, outboundStep, run, Option.map_some] at ran
    cases Option.some.inj ran
    exact recordedInvariant
  | reconnect =>
    cases Option.some.inj ran
    exact inv.reconnect _

/-- After every run the counter equals the number of buffered envelopes and no
acknowledgement can make it underflow.  On every stream that was not assigned
more sequence ids than there are, the buffered envelopes are in strict cursor
order, and an inserted envelope is still buffered exactly when no
acknowledgement of its stream at or above it followed. -/
theorem outboundBuffer_holds_unacknowledged (codec : ServerCodec)
    (steps : List OutboundStep) (final : WebsocketState) (events : List OutboundEvent)
    (run : (outboundMachine codec).run .new steps = some (final, events)) :
    final.outboundBuffer.used = final.outboundBuffer.serverEnvelopes.length ∧
      (∀ envelope, ((outboundMachine codec).step final (.record envelope)).isSome) ∧
      ∀ key, assignedCount key events ≤ u64Max →
        (final.outboundBuffer.buffered key).Pairwise (fun earlier later =>
            CursorLt earlier.cursor later.cursor) ∧
          ∀ before after envelope, envelope.key = key →
            events = before ++ .inserted envelope :: after →
            (envelope ∉ final.outboundBuffer.buffered key ↔
              ∃ cursor, .acked key cursor ∈ after ∧ CursorLe envelope.cursor cursor) := by
  have invariant : OutboundInvariant events final :=
    (outboundMachine codec).run_history (fun _ => True) OutboundInvariant
      (fun history state label after events _ => outboundStep_invariant)
      steps (fun _ _ => trivial) .new final [] events outboundInvariant_new run
  refine ⟨?_, ?_, ?_⟩
  · rw [← total_eq_length_serverEnvelopes]
    exact invariant.counted
  · intro envelope
    obtain ⟨after, recorded, _⟩ := invariant.record envelope (clientMessageKey envelope)
    simp [outboundMachine, outboundStep, recorded]
  · intro key few
    have increasing := invariant.increasing key few
    refine ⟨?_, ?_⟩
    · rw [invariant.holds]
      exact increasing.sublist (unacknowledged_sublist key events)
    · rintro before after envelope rfl rfl
      rw [invariant.holds, not_mem_unacknowledged_iff increasing]

def pongClient : ClientId := ⟨"client"⟩
def pongStream : StreamId := ⟨"stream"⟩

/-- Pongs are never split, so only the payload matters. -/
def pongCodec : ServerCodec where
  serializedLen := fun _ => .ok 0
  toVec := fun _ => .ok []
  encode := fun _ => ""
  toPayload := fun _ => some ""

variable (seqId : Nat)

def pongEnvelope : ServerEnvelope :=
  ⟨.pong .active, pongClient, pongStream, seqId⟩

def writePong : OutboundStep := .write (.pong .active) pongClient pongStream

def ackUpTo : OutboundStep :=
  .record ⟨.ack none, pongClient, some pongStream, some seqId, none⟩

theorem acked_pong_leaves_the_buffer :
    ∃ final events,
      (outboundMachine pongCodec).run .new [writePong, ackUpTo 1, writePong, .reconnect] =
          some (final, events) ∧
        final.outboundBuffer.buffered (pongClient, pongStream) = [pongEnvelope 2] ∧
        final.outboundBuffer.used = final.outboundBuffer.serverEnvelopes.length ∧
        (final.outboundBuffer.buffered (pongClient, pongStream)).Pairwise
          (fun earlier later => CursorLt earlier.cursor later.cursor) := by
  refine ⟨_, _, rfl, rfl, ?_, ?_⟩
  · exact (outboundBuffer_holds_unacknowledged pongCodec
      [writePong, ackUpTo 1, writePong, .reconnect] _ _ rfl).1
  · exact ((outboundBuffer_holds_unacknowledged pongCodec
      [writePong, ackUpTo 1, writePong, .reconnect] _ _ rfl).2.2
      (pongClient, pongStream) (by decide)).1

/-- Everything is acknowledged and the next pong is given `seqId`. -/
def drained : WebsocketState :=
  { WebsocketState.new with
    nextSeqIdByStream := AList.singleton (pongClient, pongStream) seqId }

def drain : List OutboundStep := [writePong, ackUpTo u64Max]

theorem writePong_step : outboundStep pongCodec (drained seqId) writePong =
      some ({ drained (min (seqId + 1) u64Max) with outboundBuffer :=
            ⟨AList.singleton (pongClient, pongStream) [pongEnvelope seqId], 1⟩ },
        [.assigned (pongClient, pongStream), .inserted (pongEnvelope seqId)]) :=
  rfl

theorem ackUpTo_step (seqId next : Nat) (below : seqId ≤ u64Max) :
    outboundStep pongCodec { drained next with outboundBuffer :=
          ⟨AList.singleton (pongClient, pongStream) [pongEnvelope seqId], 1⟩ }
        (ackUpTo u64Max) =
      some (drained next, [.acked (pongClient, pongStream) (u64Max, usizeMax)]) := by
  have covered : CursorLe (pongEnvelope seqId).cursor (u64Max, usizeMax) := by
    rcases Nat.lt_or_eq_of_le below with lower | equal
    · exact .inl lower
    · exact .inr ⟨equal, Nat.zero_le _⟩
  have retained : retainUnacked (u64Max, usizeMax) [pongEnvelope seqId] 1 = some ([], 0) := by
    simp [retainUnacked, covered]
  have acked : ack ⟨AList.singleton (pongClient, pongStream) [pongEnvelope seqId], 1⟩
      (pongClient, pongStream) u64Max none = some .new := by
    show (retainUnacked (u64Max, usizeMax) [pongEnvelope seqId] 1).map _ = _
    rw [retained]
    rfl
  show (Option.map _ (Option.map _ (ack _ _ u64Max none))) = _
  rw [acked]
  rfl

theorem drain_run (below : seqId ≤ u64Max) :
    (outboundMachine pongCodec).run (drained seqId) drain = some (drained (min (seqId + 1) u64Max),
    [.assigned (pongClient, pongStream), .inserted (pongEnvelope seqId),
    .acked (pongClient, pongStream) (u64Max, usizeMax)]) := by
  simp [drain, Machine.run, outboundMachine, writePong_step, ackUpTo_step _ _ below]

/-- Each round takes one sequence id until the counter saturates. -/
theorem drain_rounds (rounds seqId : Nat) (below : seqId ≤ u64Max) :
    ∃ events, (outboundMachine pongCodec).run (drained seqId)
    (List.replicate rounds drain).flatten =
    some (drained (min (seqId + rounds) u64Max), events) := by
  induction rounds generalizing seqId with
  | zero => exact ⟨[], by simp [Machine.run, below]⟩
  | succ rounds ih =>
    obtain ⟨events, restRun⟩ := ih (min (seqId + 1) u64Max) (Nat.min_le_right _ _)
    have target : min (min (seqId + 1) u64Max + rounds) u64Max =
      min (seqId + (rounds + 1)) u64Max := by omega
    rw [target] at restRun
    rw [replicate_succ, flatten_cons]
    exact ⟨_, (outboundMachine pongCodec).run_append _ _ _ _ _ _ _ (drain_run seqId below) restRun⟩

/-- A stream that has used up its sequence ids gives two unacknowledged pongs
the same one. -/
theorem saturated_stream_repeats_cursor :
    ∃ steps final events,
      (outboundMachine pongCodec).run .new steps = some (final, events) ∧
        final.outboundBuffer.buffered (pongClient, pongStream) =
          [pongEnvelope u64Max, pongEnvelope u64Max] ∧
        ¬ (final.outboundBuffer.buffered (pongClient, pongStream)).Pairwise
          (fun earlier later => CursorLt earlier.cursor later.cursor) := by
  have firstRound : (outboundMachine pongCodec).run .new drain =
    some (drained 2, [.assigned (pongClient, pongStream), .inserted (pongEnvelope 1),
    .acked (pongClient, pongStream) (u64Max, usizeMax)]) := rfl
  obtain ⟨middle, rounds⟩ := drain_rounds u64Max 2 (by decide)
  have saturated : min (2 + u64Max) u64Max = u64Max := by omega
  rw [saturated] at rounds
  have written : (outboundMachine pongCodec).run (drained u64Max) [writePong, writePong] =
      some ({ drained u64Max with
          outboundBuffer :=
            ⟨AList.singleton (pongClient, pongStream)
              [pongEnvelope u64Max, pongEnvelope u64Max], 2⟩ },
        [.assigned (pongClient, pongStream), .inserted (pongEnvelope u64Max),
          .assigned (pongClient, pongStream), .inserted (pongEnvelope u64Max)]) := rfl
  refine ⟨_, _, _, (outboundMachine pongCodec).run_append _ _ _ _ _ _ _ firstRound
    ((outboundMachine pongCodec).run_append _ _ _ _ _ _ _ rounds written), rfl, ?_⟩
  intro increasing
  exact cursorLt_irrefl _ (rel_of_pairwise_cons increasing mem_cons_self)

end CodexFormal.RemoteControl
