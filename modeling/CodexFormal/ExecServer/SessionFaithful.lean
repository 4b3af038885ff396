import CodexFormal.ExecServer.SessionRecovery

/-!
# Faithful delivery over whole runs

A session delivers the history of the server at every step of a run if and only if
no recovery of the run takes a gap for the exit that is not the exit.
-/

set_option autoImplicit false

namespace CodexFormal.ExecServer

open Foundation List Recovery ExecProcessEvent
open Patch (Text)

variable {events : List ExecProcessEvent} {session start : Session} {response : ReadResponse}
  {target : Nat} {recovery : Recovery}

/-- Every end of the recovery has sent more. -/
def Grows (earlier : List ExecProcessEvent) : Recovering Recovery → Prop :=
  Ends (fun reached => earlier <+: reached.events.sent)
    fun next => earlier <+: next.session.events.sent

variable {earlier : List ExecProcessEvent} {first : Recovering Recovery}

theorem grows_bind {next : Recovery → Recovering Recovery} (grows : Grows earlier first)
    (continues : ∀ recovery : Recovery, earlier <+: recovery.session.events.sent →
      Grows earlier (next recovery)) : Grows earlier (first >>= next) :=
  ends_bind grows continues

section

variable (sent : earlier <+: recovery.session.events.sent)

include sent

theorem grows_publishReady : earlier <+: recovery.publishReady.session.events.sent :=
  sent.trans (publishReady_advanced recovery.session).sent

theorem grows_insertPending
    (event : ExecProcessEvent) : Grows earlier (recovery.insertPending event) := by
  unfold insertPending
  split
  · exact sent
  · exact sent

theorem grows_insertExit (seq : Nat) : Grows earlier (recovery.insertExit response seq) := by
  unfold insertExit
  split
  · exact sent
  · exact grows_insertPending sent _

omit sent in
theorem grows_map {change : Recovery → Recovery} (grows : Grows earlier first)
    (keeps : ∀ recovery : Recovery, earlier <+: recovery.session.events.sent →
    earlier <+: (change recovery).session.events.sent) : Grows earlier (first.map change) := by
  cases first with
  | error stopped => exact grows
  | ok recovery => exact keeps recovery grows

theorem grows_recoverChunk
    (chunk : ProcessOutputChunk) : Grows earlier (recovery.recoverChunk target response chunk) := by
  unfold recoverChunk
  split
  · exact sent
  · refine grows_bind ?_ fun full filledSent => ?_
    · simp only [fillGap]
      split
      · exact grows_map (grows_insertExit sent _) fun _ added => grows_publishReady added
      · exact sent
    · split
      · exact grows_map (grows_insertPending filledSent _) fun _ added =>
          grows_publishReady added
      · exact filledSent

omit sent in
theorem grows_recoverChunks (chunks : List ProcessOutputChunk)
    (sent : earlier <+: recovery.session.events.sent) :
    Grows earlier (recoverChunks target response recovery chunks) := by
  induction chunks generalizing recovery with
  | nil => exact sent
  | cons chunk rest ih =>
    exact grows_bind (grows_recoverChunk sent chunk) fun next nextSent => ih nextSent

theorem grows_complete : Grows earlier (complete response target recovery) := by
  refine grows_bind ?_ fun completed completedSent => grows_publishReady completedSent
  simp only [completeExit]
  split
  · split
    · exact sent
    · exact grows_insertExit sent _
  · split
    · exact sent
    · exact sent

theorem grows_insertClose : Grows earlier (recovery.insertClose target) := by
  unfold insertClose
  split
  · exact sent
  · exact grows_insertPending sent _

end

variable {done : List ProcessOutputChunk} {gap : Nat}

/-- The session has sent an exit with the number of the gap, after as many events as come
before it. -/
def SentExitAt (gap : Nat) (sent : List ExecProcessEvent) : Prop :=
  ∃ before exitCode denied, before.length + 1 = gap ∧
    before ++ [ExecProcessEvent.exited gap exitCode denied] <+: sent

variable {now : Session}

theorem Searching.before_gap (scan : Searching start target done now)
    (firstGap : IsFirstGap start response gap)
    (inChunks : ∀ chunk ∈ done, chunk ∈ response.chunks) : now.ordered.lastPublishedSeq < gap := by
  by_contra published
  rcases scan.reached gap firstGap.unpublished (Nat.not_lt.mp published) with
    pends | ⟨chunk, inDone, isGap, _⟩
  · rw [firstGap.notPending] at pends
    cases pends
  · exact firstGap.noChunk chunk (inChunks chunk inDone) isGap

theorem Searching.next_is_gap {chunk : ProcessOutputChunk}
    {rest : List ProcessOutputChunk} (scan : Searching start target done now)
    (drained : Drained now) (honest : Honest events response target)
    (firstGap : IsFirstGap start response gap) (split : done ++ chunk :: rest = response.chunks)
    (late : now.ordered.lastPublishedSeq + 1 < chunk.seq) :
    gap ≤ now.ordered.lastPublishedSeq + 1 := by
  obtain ⟨idle, noChunk⟩ := scan.next_absent drained honest split late
  by_contra before
  rcases firstGap.before _ (Nat.lt_succ_of_le scan.later) (Nat.not_le.mp before) with
    pends | ⟨other, mem, isNext, _⟩
  · rw [idle] at pends
    cases pends
  · exact noChunk other mem isNext

theorem recoverChunk_inOrder (response : ReadResponse) (chunk : ProcessOutputChunk)
    (isIn : chunk.seq ≤ target)
    (inOrder : chunk.seq ≤ recovery.session.ordered.lastPublishedSeq + 1)
    (small : recovery.session.ordered.lastPublishedSeq < chunk.seq →
    chunk.chunk.length ≤ maxPendingProcessEventBytes) :
    ∃ next, recovery.recoverChunk target response chunk = .ok next ∧
    next.exitKnown = recovery.exitKnown := by
  have unfilled : recovery.fillGap response chunk = .ok recovery :=
    if_neg fun guesses => absurd guesses.2.2 (Nat.not_lt.mpr inOrder)
  unfold recoverChunk
  rw [if_neg (Nat.not_lt.mpr isIn), unfilled]
  change ∃ next, (if recovery.session.ordered.lastPublishedSeq < chunk.seq then
    (recovery.insertPending (.output chunk)).map publishReady else .ok recovery) = .ok next ∧ _
  split
  next later =>
    have isNext : chunk.seq = recovery.session.ordered.lastPublishedSeq + 1 := by omega
    have nextSeq : (output chunk).seq =
      some (recovery.session.ordered.lastPublishedSeq + 1) := congrArg some isNext
    obtain ⟨added, res⟩ := insertPending_next nextSeq (small later)
    unfold insertPending
    rw [res]
    exact ⟨_, rfl, rfl⟩
  · exact ⟨recovery, rfl, rfl⟩

theorem publishReady_sends (session : Session) {event : ExecProcessEvent}
    (found : session.ordered.pending.lookup (session.ordered.lastPublishedSeq + 1) = some event) :
    session.events.sent ++ [event] <+: session.publishReady.1.events.sent := by
  have smaller := FiniteMap.size_erase_lt found
  obtain ⟨rounds, isSize⟩ :=
    Nat.exists_eq_succ_of_ne_zero (Nat.ne_of_gt (Nat.zero_lt_of_lt smaller))
  unfold Session.publishReady
  rw [isSize, Nat.succ_eq_add_one]
  unfold Session.publishRounds
  rw [found]
  exact (publishRounds_advanced rounds (session.publishNext event)).sent

theorem Sound.sent_length (sound : Sound events session) :
    session.events.sent.length = session.ordered.lastPublishedSeq := by
  have lengths := congrArg List.length sound.sent
  rw [length_map, length_map, length_take] at lengths
  have inside := sound.inside
  omega

theorem fillGap_sends (settled : Settled events recovery.session) {exitCode : Int}
    (isCode : response.exitCode = some exitCode) (exited : response.exited = true)
    (unknown : recovery.exitKnown = false) (chunk : ProcessOutputChunk)
    (late : recovery.session.ordered.lastPublishedSeq + 1 < chunk.seq) :
    ∃ full, recovery.fillGap response chunk = .ok full ∧
    SentExitAt (recovery.session.ordered.lastPublishedSeq + 1) full.session.events.sent := by
  have nextSeq : (ExecProcessEvent.exited (recovery.session.ordered.lastPublishedSeq + 1) exitCode
    (some response.sandboxDenied)).seq = some (recovery.session.ordered.lastPublishedSeq + 1) := rfl
  obtain ⟨added, res⟩ := insertPending_next nextSeq (Nat.zero_le _)
  have full : recovery.fillGap response chunk =
      (recovery.insertExit response (recovery.session.ordered.lastPublishedSeq + 1)).map
        fun added => { added.publishReady with exitKnown := true } :=
    if_pos ⟨exited, unknown, late⟩
  rw [full, insertExit_of_exitCode isCode]
  unfold insertPending
  rw [res]
  refine ⟨_, rfl, _, exitCode, some response.sandboxDenied,
    congrArg (· + 1) settled.sound.sent_length, ?_⟩
  refine publishReady_sends { recovery.session with ordered := added } ?_
  rcases insertPending_ok rfl res with ⟨already, _⟩ | ⟨_, _, rfl⟩
  · rw [settled.drained] at already
    cases already
  · exact (FiniteMap.lookup_insert_eq_ite _ _ _ _).trans (if_pos rfl)

/-- Every end of the recovery has sent an exit with the number of the gap. -/
def SendsExitAt (gap : Nat) : Recovering Recovery → Prop :=
  Ends (fun reached => SentExitAt gap reached.events.sent)
    fun next => SentExitAt gap next.session.events.sent

theorem SentExitAt.carried {sent : List ExecProcessEvent} {result : Recovering Recovery}
    (sentExit : SentExitAt gap sent)
    (grows : ∀ earlier, earlier <+: sent → Grows earlier result) : SendsExitAt gap result := by
  obtain ⟨pre, code, denied, isGap, sentBefore⟩ := sentExit
  have grown := grows _ sentBefore
  cases result with
  | _ => exact ⟨pre, code, denied, isGap, grown⟩

theorem sends_bind {next : Recovery → Recovering Recovery} (sends : SendsExitAt gap first)
    (grows : ∀ (recovery : Recovery) earlier, earlier <+: recovery.session.events.sent →
      Grows earlier (next recovery)) : SendsExitAt gap (first >>= next) :=
  ends_bind sends fun recovery sentExit => sentExit.carried (grows recovery)

theorem recoverChunk_sends (settled : Settled events recovery.session) {exitCode : Int}
    (isCode : response.exitCode = some exitCode) (exited : response.exited = true)
    (unknown : recovery.exitKnown = false) (chunk : ProcessOutputChunk) (isIn : chunk.seq ≤ target)
    (late : recovery.session.ordered.lastPublishedSeq + 1 < chunk.seq) :
    SendsExitAt (recovery.session.ordered.lastPublishedSeq + 1)
    (recovery.recoverChunk target response chunk) := by
  obtain ⟨full, isFilled, sentExit⟩ := fillGap_sends settled isCode exited unknown chunk late
  refine sentExit.carried fun earlier sent => ?_
  unfold recoverChunk
  rw [if_neg (Nat.not_lt.mpr isIn), isFilled]
  change Grows earlier (if full.session.ordered.lastPublishedSeq < chunk.seq then
    (full.insertPending (.output chunk)).map .publishReady else .ok full)
  split
  · exact grows_map (grows_insertPending sent _) fun _ added => grows_publishReady added
  · exact sent

theorem Searching.small_before_gap {chunk : ProcessOutputChunk}
    (scan : Searching start target done now) (drained : Drained now)
    (honest : Honest events response target) (firstGap : IsFirstGap start response gap)
    (mem : chunk ∈ response.chunks)
    (isNext : chunk.seq = now.ordered.lastPublishedSeq + 1) (before : chunk.seq < gap) :
    chunk.chunk.length ≤ maxPendingProcessEventBytes := by
  have later : start.ordered.lastPublishedSeq < chunk.seq := by
    rw [isNext]
    exact Nat.lt_succ_of_le scan.later
  rcases firstGap.before chunk.seq later before with pends | ⟨other, inChunks, same, small⟩
  · have stillPending := scan.kept chunk.seq (by omega) pends
    rw [isNext, drained] at stillPending
    cases stillPending
  · have otherAt := (honest.chunks other inChunks).2.2
    rw [same, (honest.chunks chunk mem).2.2] at otherAt
    cases otherAt
    exact small

theorem recoverChunks_sends (history : ServerHistory events)
    (honest : Honest events response target) (exited : response.exited = true) {exitCode : Int}
    (isCode : response.exitCode = some exitCode) (firstGap : IsFirstGap start response gap)
    {rest : List ProcessOutputChunk} (loop : Looping events target recovery)
    (unknown : recovery.exitKnown = false) (scan : Searching start target done recovery.session)
    (split : done ++ rest = response.chunks) (after : ∃ chunk ∈ rest, gap < chunk.seq) :
    SendsExitAt gap (recoverChunks target response recovery rest) := by
  induction rest generalizing recovery done with
  | nil =>
    obtain ⟨chunk, mem, _⟩ := after
    cases mem
  | cons chunk rest ih =>
    have mem : chunk ∈ response.chunks :=
      split ▸ mem_append_right _ mem_cons_self
    have isIn := (honest.chunks chunk mem).2.1
    have pre := scan.before_gap firstGap fun other inDone => split ▸ mem_append_left _ inDone
    by_cases late : recovery.session.ordered.lastPublishedSeq + 1 < chunk.seq
    · have got := scan.next_is_gap loop.drained honest firstGap split late
      have isGap : recovery.session.ordered.lastPublishedSeq + 1 = gap := by omega
      refine sends_bind (isGap ▸ recoverChunk_sends loop.settled isCode exited unknown chunk
        isIn late) fun next earlier sent => grows_recoverChunks rest sent
    · have notGap := firstGap.noChunk chunk mem
      obtain ⟨next, taken, sameKnown⟩ := recoverChunk_inOrder response chunk isIn
        (Nat.not_lt.mp late) fun later =>
        scan.small_before_gap loop.drained honest firstGap mem (by omega) (by omega)
      have step := loop.recoverChunk history honest (fun _ => scan) chunk mem
        fun _ _ tooLate => absurd tooLate late
      rw [taken] at step
      obtain ⟨nextLoop, nextSearch⟩ := step
      have nextUnknown := sameKnown.trans unknown
      change SendsExitAt gap (recovery.recoverChunk target response chunk >>= fun next =>
        recoverChunks target response next rest)
      rw [taken]
      refine ih nextLoop nextUnknown (nextSearch nextUnknown) (by rw [append_assoc]; exact split) ?_
      obtain ⟨lateChunk, inRest, isLate⟩ := after
      rcases mem_cons.mp inRest with rfl | inRest
      · omega
      · exact ⟨lateChunk, inRest, isLate⟩

theorem Honest.exists_exitCode (honest : Honest events response target)
    (exited : response.exited = true) : ∃ exitCode, response.exitCode = some exitCode := by
  rw [honest.exited, List.any_eq_true] at exited
  obtain ⟨event, mem, isExited⟩ := exited
  obtain ⟨index, isAt⟩ := List.mem_iff_getElem?.mp mem
  obtain ⟨isIn, isAt⟩ := getElem?_take_some isAt
  cases event with
  | exited seq exitCode denied => exact ⟨exitCode, honest.exitCode _ _ _ _ isIn isAt⟩
  | _ => cases isExited

theorem Settled.recover_sends (settled : Settled events session) (history : ServerHistory events)
    (honest : Honest events response target) (lacks : LacksExit session response)
    (firstGap : IsFirstGap session response gap) : SendsExitAt gap (session.recover response) := by
  obtain ⟨code, isCode⟩ := honest.exists_exitCode lacks.exited
  have notPending := lacks.notPending
  rw [honest.isTarget] at notPending
  have unknown : (first session response target).exitKnown = false := by
    simp only [first, lacks.unpublished, notPending, Option.isSome_none, Bool.or_false]
  have scan := first_searching unknown
  rw [marked_of_notPending notPending] at scan
  rw [recover_eq settled.sound honest]
  refine sends_bind (recoverChunks_sends history honest lacks.exited isCode firstGap
    (settled.sound.first_looping settled.drained response target) unknown scan
    rfl firstGap.after) ?_
  intro chunked earlier sent
  split
  · exact grows_bind (grows_insertClose sent) fun closed closedSent => grows_complete closedSent
  · exact grows_complete sent

theorem exitsAt_of_published {published : List ExecProcessEvent}
    (sound : PublishedFaithfully events published) (sentExit : SentExitAt gap published) :
    ExitsAt events gap := by
  obtain ⟨pre, code, denied, isGap, after, rfl⟩ := sentExit
  obtain ⟨count, _, isTaken⟩ := sound
  have isAt : ((pre ++ [exited gap code denied] ++ after).map
      plain)[gap - 1]? = some (.exited gap code none) := by
    rw [getElem?_map, append_assoc, getElem?_append_right (by omega)]
    have first : gap - 1 - pre.length = 0 := by omega
    rw [first]
    rfl
  have orig : ((events.take count).map plain)[gap - 1]? = some (.exited gap code none) := by
    rcases isTaken with isTaken | ⟨msg, isTaken⟩
    · rw [← isTaken]
      exact isAt
    · rw [isTaken, getElem?_append] at isAt
      split at isAt
      · exact isAt
      · have isFailed := mem_of_getElem? isAt
        rw [mem_singleton] at isFailed
        cases isFailed
  rw [getElem?_map, Option.map_eq_some_iff] at orig
  obtain ⟨event, eventAt, isExit⟩ := orig
  refine ⟨event, (getElem?_take_some eventAt).2, ?_⟩
  rw [← isExited_plain, isExit]
  rfl

/-- A session that works, or one that has published its failure. -/
inductive Delivering (events : List ExecProcessEvent) (session : Session) : Prop where
  | working (settled : Settled events session)
  | failed (isFailed : session.ordered.failure.isSome = true)
      (published : PublishedFaithfully events session.events.sent)

theorem Settled.published (settled : Settled events session) :
    PublishedFaithfully events session.events.sent :=
  ⟨session.ordered.lastPublishedSeq, settled.sound.inside, .inl settled.sound.sent⟩

theorem Delivering.published (sending : Delivering events session) :
    PublishedFaithfully events session.events.sent := by
  cases sending with
  | working settled => exact settled.published
  | failed _ published => exact published

theorem delivering_new (events : List ExecProcessEvent) : Delivering events .new :=
  .working
    { sound :=
        { alive := rfl
          inside := Nat.zero_le _
          sent := rfl
          pending := fun _ _ lookup => by cases lookup
          exit := rfl
          close := rfl }
      drained := rfl }

theorem Delivering.publishOrderedEvent (sending : Delivering events session)
    (history : ServerHistory events) {event : ExecProcessEvent} (mem : event ∈ events) :
    Delivering events (session.publishOrderedEvent event).2 := by
  obtain ⟨index, isAt⟩ := List.mem_iff_getElem?.mp mem
  have isSeq := history.numbered index event isAt
  unfold Session.publishOrderedEvent
  rw [isSeq]
  simp only
  split
  · exact sending
  next accepts =>
    rw [not_or, not_or] at accepts
    obtain ⟨alive, _, later⟩ := accepts
    cases sending with
    | failed isFailed _ => exact absurd isFailed alive
    | working settled =>
      cases res : session.ordered.insertPending event with
      | error msg => exact .working settled
      | ok added =>
        obtain ⟨sound, drained, _⟩ :=
          settled.sound.progress isSeq (Nat.not_le.mp later) isAt rfl res
        exact .working ⟨sound, drained⟩

theorem Delivering.setFailure (sending : Delivering events session) (msg : Text) :
    Delivering events (session.setFailure msg) := by
  unfold Session.setFailure
  split
  · exact sending
  next accepts =>
    cases sending with
    | failed isFailed _ => exact absurd (.inl isFailed) accepts
    | working settled =>
      refine .failed rfl ⟨session.ordered.lastPublishedSeq, settled.sound.inside, Or.inr ⟨msg, ?_⟩⟩
      change (session.events.sent ++ [ExecProcessEvent.failed msg]).map plain = _
      rw [map_append, settled.sound.sent]
      rfl

section

variable (settled : Settled events session) (log : ServerHistory events)
  (honest : Honest events response target)

include settled log honest

/-- A recovery keeps the session working unless it takes a wrong number for the exit, and what
it has answered for is published. -/
theorem Settled.recoverEvents (gaps : FirstGapIsExit events session response) :
    Settled events (session.recoverEvents response).2 ∧
    ∀ res, (session.recoverEvents response).1 = .ok res →
    (session.recoverEvents response).2.ordered.closedPublished = false →
    target ≤ (session.recoverEvents response).2.ordered.lastPublishedSeq := by
  unfold Session.recoverEvents
  simp only [honest.noFailure, honest.isTarget]
  split
  next skips =>
    refine ⟨settled, fun _ _ isOpen => ?_⟩
    rcases skips with isFailed | isClosed | got
    · rw [settled.sound.alive] at isFailed
      cases isFailed
    · exact absurd (isOpen.symm.trans isClosed) Bool.false_ne_true
    · exact got
  next accepts =>
    rw [not_or, not_or] at accepts
    have recovered := settled.sound.recover settled.drained
      (Bool.eq_false_iff.mpr accepts.2.1) log honest gaps
    cases res : session.recover response with
    | error stopped =>
      rw [res] at recovered
      exact ⟨recovered, fun _ isOk => by cases isOk⟩
    | ok next =>
      rw [res] at recovered
      exact ⟨recovered.1, fun _ _ _ => recovered.2⟩

theorem Settled.recoverEvents_unfaithful
    (published : PublishedFaithfully events (session.recoverEvents response).2.events.sent) :
    FirstGapIsExit events session response := by
  intro lacks gap firstGap
  obtain ⟨chunk, mem, isLate⟩ := firstGap.after
  have isIn := (honest.chunks chunk mem).2.1
  have unpublished := firstGap.unpublished
  have accepts : ¬(session.ordered.failure.isSome = true ∨ session.ordered.closedPublished = true ∨
        target ≤ session.ordered.lastPublishedSeq) := by
    rw [lacks.alive, lacks.notClosed]
    simp only [Option.isSome_none, Bool.false_eq_true, false_or]
    omega
  have sends := settled.recover_sends log honest lacks firstGap
  unfold Session.recoverEvents at published
  simp only [honest.noFailure, honest.isTarget, if_neg accepts] at published
  cases res : session.recover response with
  | error stopped =>
    rw [res] at sends published
    exact exitsAt_of_published published sends
  | ok next =>
    rw [res] at sends published
    exact exitsAt_of_published published sends

end

/-- The condition on one step: a recovery's first gap is the exit's. -/
def TakesNoWrongExit (events : List ExecProcessEvent)
    (taken : Taken Session SessionAction (Except Text Bool)) : Prop :=
  ∀ response, taken.label = .recover response → FirstGapIsExit events taken.before response

section

variable (log : ServerHistory events) (taken : Taken Session SessionAction (Except Text Bool))

include log

theorem recover_step
    (isAnswer : IsAnswer events response) (isRecover : taken.label = .recover response)
    (sending : Delivering events taken.before)
    (ran : sessionMachine.step taken.before taken.label = some (taken.after, taken.outputs)) :
    (DeliversFaithfully events taken ↔ TakesNoWrongExit events taken) ∧
    (TakesNoWrongExit events taken → Delivering events taken.after) := by
  obtain ⟨before, label, after, outputs⟩ := taken
  simp only at isRecover sending ran
  subst isRecover
  cases Option.some.inj ran
  obtain ⟨emitted, retained, afterSeq, refused, isIn, suffix, isResponse⟩ := isAnswer
  have honest : Honest events response emitted :=
    isResponse ▸ honest_answer log emitted afterSeq retained refused isIn suffix
  cases sending with
  | failed isFailed published =>
    have same : before.recoverEvents response = (.ok false, before) := by
      unfold Session.recoverEvents
      simp [honest.noFailure, isFailed]
    have cond : TakesNoWrongExit events
        ⟨before, .recover response, (before.recoverEvents response).2,
          [(before.recoverEvents response).1]⟩ := by
      intro other isOther lacks
      have alive : before.ordered.failure = none := lacks.alive
      rw [alive] at isFailed
      cases isFailed
    refine ⟨iff_of_true ⟨?_, ?_⟩ cond, fun _ => ?_⟩
    · rw [same]
      exact published
    · intro _ _ _ _ alive
      rw [same] at alive
      rw [alive] at isFailed
      cases isFailed
    · rw [same]
      exact .failed isFailed published
  | working settled =>
    have kept := fun gaps => settled.recoverEvents log honest gaps
    refine ⟨⟨?_, ?_⟩, ?_⟩
    · rintro ⟨published, _⟩ other isOther
      cases isOther
      exact settled.recoverEvents_unfaithful log honest published
    · intro cond
      obtain ⟨after, reaches⟩ := kept (cond response rfl)
      refine ⟨after.published, fun other res isOther isOk alive isOpen => ?_⟩
      cases isOther
      rw [after.sound.sent_length, honest.isTarget]
      exact reaches res (List.cons.inj isOk).1 isOpen
    · intro cond
      exact .working (kept (cond response rfl)).1

theorem session_step
    (fromServer : FromServer events taken.label) (sending : Delivering events taken.before)
    (ran : sessionMachine.step taken.before taken.label = some (taken.after, taken.outputs)) :
    (DeliversFaithfully events taken ↔ TakesNoWrongExit events taken) ∧
    (TakesNoWrongExit events taken → Delivering events taken.after) := by
  have quiet : (∀ response, taken.label ≠ .recover response) → Delivering events taken.after →
      (DeliversFaithfully events taken ↔ TakesNoWrongExit events taken) ∧
        (TakesNoWrongExit events taken → Delivering events taken.after) := by
    intro notRecover after
    exact ⟨iff_of_true ⟨after.published, fun response _ isRecover =>
      absurd isRecover (notRecover response)⟩
      fun response isRecover => absurd isRecover (notRecover response), fun _ => after⟩
  cases isLabel : taken.label with
  | recover response =>
    rw [isLabel] at fromServer
    exact recover_step log taken fromServer isLabel sending ran
  | notify event =>
    refine quiet (by simp [isLabel]) ?_
    rw [isLabel] at fromServer ran
    have after : (taken.before.publishOrderedEvent event).2 = taken.after :=
      congrArg Prod.fst (Option.some.inj ran)
    rw [← after]
    exact sending.publishOrderedEvent log fromServer
  | fail msg =>
    refine quiet (by simp [isLabel]) ?_
    rw [isLabel] at ran
    have after : taken.before.setFailure msg = taken.after :=
      congrArg Prod.fst (Option.some.inj ran)
    rw [← after]
    exact sending.setFailure msg

end

/-- A session delivers the history faithfully at every step exactly if no recovery takes a wrong
number for the exit. -/
theorem delivery_faithful_iff (events : List ExecProcessEvent) (history : ServerHistory events)
    (actions : List SessionAction) (fromServer : ∀ action ∈ actions, FromServer events action)
    (taken : List (Taken Session SessionAction (Except Text Bool)))
    (traced : sessionMachine.trace Session.new actions = some taken) :
    (∀ step ∈ taken, DeliversFaithfully events step) ↔
      ∀ step ∈ taken, TakesNoWrongExit events step :=
  sessionMachine.trace_iff (FromServer events) (Delivering events) (DeliversFaithfully events)
    (TakesNoWrongExit events) (fun step => session_step history step) actions fromServer
    .new taken (delivering_new events) traced

theorem serverHistory_of_get (events : List ExecProcessEvent)
    (numbered : ∀ index : Fin events.length, (events.get index).seq = some (index.val + 1))
    (exitOnce : ∀ first second : Fin events.length, (events.get first).isExited = true →
    (events.get second).isExited = true → first = second)
    (exitBeforeClose : ∀ index : Fin events.length, (events.get index).isClosed = true →
    index.val + 1 = events.length ∧
    (events.take index.val).any isExited = true) : ServerHistory events where
  numbered := by
    intro index event isAt
    obtain ⟨isIn, rfl⟩ := List.getElem?_eq_some_iff.mp isAt
    exact numbered ⟨index, isIn⟩
  exitOnce := by
    intro first second event other firstAt secondAt isExited otherExited
    obtain ⟨firstInside, rfl⟩ := List.getElem?_eq_some_iff.mp firstAt
    obtain ⟨secondInside, rfl⟩ := List.getElem?_eq_some_iff.mp secondAt
    exact congrArg Fin.val (exitOnce ⟨first, firstInside⟩ ⟨second, secondInside⟩ isExited
      otherExited)
  exitBeforeClose := by
    intro index event isAt isClosed
    obtain ⟨isIn, rfl⟩ := List.getElem?_eq_some_iff.mp isAt
    exact exitBeforeClose ⟨index, isIn⟩ isClosed

/-- The first of two chunks is no longer retained when the session reads after the exit. -/
def evictedHistory : List ExecProcessEvent := [.output ⟨1, [1]⟩, .output ⟨2, [2]⟩, .exited 3 0 none]

def evictedAnswer : ReadResponse := answer evictedHistory 3 [⟨2, [2]⟩] 0 false

/-- The evicted chunk's number is published as the exit. -/
theorem evicted_chunk_published_as_exit :
    ServerHistory evictedHistory ∧ IsAnswer evictedHistory evictedAnswer ∧
      ∃ taken, sessionMachine.trace Session.new [.recover evictedAnswer] = some taken ∧
        ¬∀ step ∈ taken, DeliversFaithfully evictedHistory step := by
  refine ⟨serverHistory_of_get _ (by decide) (by decide) (by decide),
    ⟨3, [⟨2, [2]⟩], 0, false, by decide, ⟨[⟨1, [1]⟩], rfl⟩, rfl⟩, _, rfl, fun faithful => ?_⟩
  have published := (faithful _ mem_cons_self).1
  obtain ⟨event, isAt, isExited⟩ :=
    exitsAt_of_published published ⟨[], 0, some false, rfl, [.output ⟨2, [2]⟩], rfl⟩
  cases isAt
  cases isExited

/-- The exit lies between two chunks and all output is retained. -/
def retainedHistory : List ExecProcessEvent :=
  [.output ⟨1, [1]⟩, .exited 2 0 none, .output ⟨3, [2]⟩, .closed 4]

def retainedAnswer : ReadResponse := answer retainedHistory 4 [⟨1, [1]⟩, ⟨3, [2]⟩] 0 true

def retainedRun : List SessionAction :=
  [.notify (.output ⟨3, [2]⟩), .recover retainedAnswer, .notify (.closed 4)]

theorem retained_history_delivered :
    ∃ taken, sessionMachine.trace Session.new retainedRun = some taken ∧
      ∀ step ∈ taken, DeliversFaithfully retainedHistory step := by
  have fromServer : ∀ action ∈ retainedRun, FromServer retainedHistory action := by
    simp only [retainedRun, List.forall_mem_cons, List.not_mem_nil, IsEmpty.forall_iff,
      implies_true, and_true]
    exact ⟨by simp [FromServer, retainedHistory],
      ⟨4, _, 0, true, by decide, List.suffix_rfl, rfl⟩, by simp [FromServer, retainedHistory]⟩
  refine ⟨_, rfl, (delivery_faithful_iff retainedHistory
    (serverHistory_of_get _ (by decide) (by decide) (by decide)) retainedRun fromServer _
      rfl).mpr ?_⟩
  simp only [List.forall_mem_cons, List.not_mem_nil, IsEmpty.forall_iff, implies_true, and_true]
  refine ⟨?_, ?_, ?_⟩
  · intro _ isRecover
    cases isRecover
  · intro response isRecover _ gap firstGap
    cases isRecover
    obtain ⟨chunk, mem, isLate⟩ := firstGap.after
    have early : ∀ chunk ∈ retainedAnswer.chunks, chunk.seq ≤ 3 := by decide
    have isEarly := early chunk mem
    have later : 0 < gap := firstGap.unpublished
    have notFirst : 1 ≠ gap := firstGap.noChunk ⟨1, [1]⟩ (by decide)
    have isExit : gap = 2 := by omega
    rw [isExit]
    exact ⟨.exited 2 0 none, rfl, rfl⟩
  · intro _ isRecover
    cases isRecover

end CodexFormal.ExecServer
