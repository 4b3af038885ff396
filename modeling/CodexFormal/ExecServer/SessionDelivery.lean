import CodexFormal.ExecServer.SessionEvents

/-!
# Delivery of process events

The server has one numbered history of a process.  Notifications may be lost,
repeated and reordered, and answers to reads come from some moment of the
history with an end of its output.  What the session publishes is compared with
the history.
-/

set_option autoImplicit false

namespace CodexFormal.ExecServer

open Foundation FiniteMap Option List OrderedSessionEvents
open Patch (Text)

/-- Output chunks, one exit and a close that comes last, numbered from one. -/
structure ServerHistory (events : List ExecProcessEvent) : Prop where
  numbered : ∀ (index : Nat) (event : ExecProcessEvent),
    events[index]? = some event → event.seq = some (index + 1)
  exitOnce : ∀ (first second : Nat) (event other : ExecProcessEvent),
    events[first]? = some event → events[second]? = some other →
      event.isExited = true → other.isExited = true → first = second
  exitBeforeClose : ∀ (index : Nat) (event : ExecProcessEvent), events[index]? = some event →
    event.isClosed = true → index + 1 = events.length ∧
      (events.take index).any ExecProcessEvent.isExited = true

def exitCode? : ExecProcessEvent → Option Int
  | .exited _ exitCode _ => some exitCode
  | _ => none

variable (events : List ExecProcessEvent)

/-- The answer to an unlimited read after the given number of events, when the server retains
the given output. -/
def answer (emitted : Nat) (retained : List ProcessOutputChunk)
    (afterSeq : Nat) (sandboxDenied : Bool) : ReadResponse :=
  { chunks := retained.filter fun chunk => decide (afterSeq < chunk.seq)
    nextSeq := emitted + 1
    exited := ((events.take emitted).findSome? exitCode?).isSome
    exitCode := (events.take emitted).findSome? exitCode?
    closed := (events.take emitted).any ExecProcessEvent.isClosed
    failure := none
    sandboxDenied := sandboxDenied }

def IsAnswer (response : ReadResponse) : Prop :=
  ∃ emitted retained afterSeq sandboxDenied, emitted ≤ events.length ∧
    retained <:+ (events.take emitted).filterMap ExecProcessEvent.chunk? ∧
    response = answer events emitted retained afterSeq sandboxDenied

def FromServer : SessionAction → Prop
  | .notify event => event ∈ events
  | .recover response => IsAnswer events response
  | .fail _ => True

/-- Number, kind, bytes and exit code; the sandbox classification is left out. -/
def plain : ExecProcessEvent → ExecProcessEvent
  | .exited seq exitCode _ => .exited seq exitCode none
  | event => event

/-- A prefix of the history, or one with a final failure after it. -/
def PublishedFaithfully (events published : List ExecProcessEvent) : Prop :=
  ∃ count ≤ events.length, published.map plain = (events.take count).map plain ∨
    ∃ message, published.map plain = (events.take count).map plain ++ [.failed message]

def DeliversFaithfully (taken : Taken Session SessionAction (Except Text Bool)) : Prop :=
  PublishedFaithfully events taken.after.events.sent ∧
    ∀ response result, taken.label = .recover response → taken.outputs = [.ok result] →
      taken.after.ordered.failure = none → taken.after.ordered.closedPublished = false →
        response.nextSeq - 1 ≤ taken.after.events.sent.length

def ExitsAt (seq : Nat) : Prop :=
  ∃ event, events[seq - 1]? = some event ∧ event.isExited = true

/-- The first number that is neither published, nor pending, nor in the answer, when the answer
has a later chunk. -/
structure IsFirstGap (session : Session) (response : ReadResponse) (gap : Nat) : Prop where
  unpublished : session.ordered.lastPublishedSeq < gap
  notPending : session.ordered.pending.lookup gap = none
  noChunk : ∀ chunk ∈ response.chunks, chunk.seq ≠ gap
  before : ∀ seq, session.ordered.lastPublishedSeq < seq → seq < gap →
    (session.ordered.pending.lookup seq).isSome = true ∨
      ∃ chunk ∈ response.chunks, chunk.seq = seq ∧
        chunk.chunk.length ≤ maxPendingProcessEventBytes
  after : ∃ chunk ∈ response.chunks, gap < chunk.seq

/-- The answer knows of an exit that a working session has neither published nor pending. -/
structure LacksExit (session : Session) (response : ReadResponse) : Prop where
  alive : session.ordered.failure = none
  notClosed : session.ordered.closedPublished = false
  exited : response.exited = true
  unpublished : session.ordered.exitPublished = false
  notPending : session.ordered.pendingExit (response.nextSeq - 1) = none

def FirstGapIsExit (session : Session) (response : ReadResponse) : Prop :=
  LacksExit session response → ∀ gap, IsFirstGap session response gap → ExitsAt events gap

variable (event : ExecProcessEvent)

theorem isExited_plain : (plain event).isExited = event.isExited := by
  cases event <;> rfl

theorem isClosed_plain : (plain event).isClosed = event.isClosed := by
  cases event <;> rfl

theorem retainedLen_plain : (plain event).retainedLen = event.retainedLen := by
  cases event <;> rfl

theorem plain_markDenied (refused : Bool) (event : ExecProcessEvent) :
    plain (markDenied refused event) = plain event := by
  cases event <;> rfl

theorem seq_of_chunk {event : ExecProcessEvent} {chunk : ProcessOutputChunk}
    (isChunk : event.chunk? = some chunk) : event.seq = some chunk.seq := by
  cases event with
  | output other =>
    cases isChunk
    rfl
  | _ => cases isChunk

theorem exitCode_isSome : (exitCode? event).isSome = event.isExited := by
  cases event <;> rfl

/-- A session that has not failed has published a prefix and keeps later events aside. -/
structure Sound (events : List ExecProcessEvent) (session : Session) : Prop where
  alive : session.ordered.failure = none
  inside : session.ordered.lastPublishedSeq ≤ events.length
  sent : session.events.sent.map plain =
    (events.take session.ordered.lastPublishedSeq).map plain
  pending : ∀ seq event, session.ordered.pending.lookup seq = some event →
    session.ordered.lastPublishedSeq < seq ∧
      event.retainedLen ≤ maxPendingProcessEventBytes ∧
      ∃ original, events[seq - 1]? = some original ∧ plain event = plain original
  exit : session.ordered.exitPublished =
    (events.take session.ordered.lastPublishedSeq).any ExecProcessEvent.isExited
  close : session.ordered.closedPublished =
    (events.take session.ordered.lastPublishedSeq).any ExecProcessEvent.isClosed

def Drained (session : Session) : Prop :=
  session.ordered.pending.lookup (session.ordered.lastPublishedSeq + 1) = none

/-- The second session has published some of what the first had pending. -/
structure Advanced (before after : Session) : Prop where
  later : before.ordered.lastPublishedSeq ≤ after.ordered.lastPublishedSeq
  kept : ∀ seq, after.ordered.lastPublishedSeq < seq →
    after.ordered.pending.lookup seq = before.ordered.pending.lookup seq
  published : ∀ seq, before.ordered.lastPublishedSeq < seq →
    seq ≤ after.ordered.lastPublishedSeq →
      (before.ordered.pending.lookup seq).isSome = true
  sent : before.events.sent <+: after.events.sent

variable {events : List ExecProcessEvent} {session : Session}

theorem take_succ_any (test : ExecProcessEvent → Bool) (count : Nat) (event : ExecProcessEvent)
    (isAt : events[count]? = some event) :
    (events.take (count + 1)).any test = ((events.take count).any test || test event) := by
  rw [List.take_add_one, isAt, any_append]
  simp

theorem Sound.publishNext (sound : Sound events session) (event : ExecProcessEvent)
    (found : session.ordered.pending.lookup (session.ordered.lastPublishedSeq + 1) =
    some event) : Sound events (session.publishNext event) := by
  obtain ⟨_, _, orig, isAt, same⟩ := sound.pending _ event found
  rw [Nat.add_sub_cancel] at isAt
  have isExited : event.isExited = orig.isExited := by
    rw [← isExited_plain event, same, isExited_plain]
  have isClosed : event.isClosed = orig.isClosed := by
    rw [← isClosed_plain event, same, isClosed_plain]
  constructor
  · exact sound.alive
  · exact (List.getElem?_eq_some_iff.mp isAt).1
  · change (session.events.sent ++ [event]).map plain =
      (events.take (session.ordered.lastPublishedSeq + 1)).map plain
    rw [List.map_append, sound.sent, List.take_add_one, isAt, List.map_append]
    simp [same]
  · intro seq other lookup
    change (session.ordered.pending.erase _).lookup seq = some other at lookup
    rw [lookup_erase_eq_ite] at lookup
    split at lookup
    · cases lookup
    next ne =>
      obtain ⟨later, rest⟩ := sound.pending seq other lookup
      exact ⟨Nat.lt_of_le_of_ne later (Ne.symm ne), rest⟩
  · change (session.ordered.exitPublished || event.isExited) = _
    rw [sound.exit, isExited, ← take_succ_any _ _ _ isAt]
    rfl
  · change (session.ordered.closedPublished || event.isClosed) = _
    rw [sound.close, isClosed, ← take_succ_any _ _ _ isAt]
    rfl

theorem advanced_refl (session : Session) : Advanced session session where
  later := Nat.le_refl _
  kept := fun _ _ => rfl
  published := fun _ later early => absurd early (Nat.not_le.mpr later)
  sent := prefix_rfl

theorem advanced_publishNext (after : Session)
    (found : session.ordered.pending.lookup (session.ordered.lastPublishedSeq + 1) = some event)
    (rest : Advanced (session.publishNext event) after) : Advanced session after where
  later := Nat.le_of_succ_le rest.later
  kept := by
    intro seq late
    have next : session.ordered.lastPublishedSeq + 1 ≤ after.ordered.lastPublishedSeq := rest.later
    rw [rest.kept seq late]
    change (session.ordered.pending.erase _).lookup seq = _
    rw [lookup_erase_eq_ite, if_neg (by omega)]
  published := by
    intro seq later early
    by_cases isNext : seq = session.ordered.lastPublishedSeq + 1
    · rw [isNext, found]
      rfl
    · have pending := rest.published seq (Nat.lt_of_le_of_ne later (Ne.symm isNext)) early
      change ((session.ordered.pending.erase _).lookup seq).isSome = true at pending
      rw [lookup_erase_eq_ite, if_neg isNext] at pending
      exact pending
  sent := (prefix_append _ _).trans rest.sent

variable (rounds : Nat)

theorem publishRounds_advanced (session : Session) :
    Advanced session (Session.publishRounds rounds session).1 := by
  induction rounds generalizing session with
  | zero => exact advanced_refl session
  | succ rounds ih =>
    unfold Session.publishRounds
    split
    · exact advanced_refl session
    next event found =>
      exact advanced_publishNext event _ found (ih _)

theorem Sound.publishRounds (sound : Sound events session) :
    Sound events (Session.publishRounds rounds session).1 := by
  induction rounds generalizing session with
  | zero => exact sound
  | succ rounds ih =>
    unfold Session.publishRounds
    split
    · exact sound
    next event found =>
      exact ih (sound.publishNext event found)

theorem publishRounds_drained (session : Session) (enough : size session.ordered.pending ≤ rounds) :
    Drained (Session.publishRounds rounds session).1 := by
  induction rounds generalizing session with
  | zero =>
    change session.ordered.pending.lookup (session.ordered.lastPublishedSeq + 1) = none
    cases found : session.ordered.pending.lookup (session.ordered.lastPublishedSeq + 1) with
    | none => rfl
    | some event =>
      have smaller := size_erase_lt found
      omega
  | succ rounds ih =>
    unfold Session.publishRounds
    split
    · assumption
    next event found =>
      refine ih _ ?_
      have smaller := size_erase_lt found
      change size (session.ordered.pending.erase _) ≤ rounds
      omega

theorem Sound.publishReady (sound : Sound events session) : Sound events session.publishReady.1 :=
  sound.publishRounds _

theorem publishReady_drained (session : Session) : Drained session.publishReady.1 :=
  publishRounds_drained _ session (Nat.le_refl _)

theorem publishReady_advanced (session : Session) : Advanced session session.publishReady.1 :=
  publishRounds_advanced _ session

/-- An event is kept unless its number is already pending. -/
theorem insertPending_ok {ordered added : OrderedSessionEvents} {event : ExecProcessEvent}
    {seq : Nat} (isSeq : event.seq = some seq) (res : ordered.insertPending event = .ok added) :
    ((ordered.pending.lookup seq).isSome = true ∧ added = ordered) ∨
      (ordered.pending.lookup seq = none ∧ event.retainedLen ≤ maxPendingProcessEventBytes ∧
        added = { ordered with
          pending := ordered.pending.insert seq event
          pendingBytes := ordered.pendingBytes + event.retainedLen }) := by
  unfold insertPending at res
  rw [isSeq] at res
  simp only at res
  split at res
  next already =>
    cases res
    exact Or.inl ⟨already, rfl⟩
  next gone =>
    split at res
    · cases res
    · split at res
      · cases res
      · split at res
        · cases res
        next small _ =>
          cases res
          exact Or.inr ⟨by simpa using gone, Nat.not_lt.mp small, rfl⟩

theorem insertPending_next {ordered : OrderedSessionEvents} {event : ExecProcessEvent}
    (isNext : event.seq = some (ordered.lastPublishedSeq + 1))
    (small : event.retainedLen ≤ maxPendingProcessEventBytes) :
    ∃ inserted, ordered.insertPending event = .ok inserted := by
  unfold insertPending
  rw [isNext]
  simp only [decide_true, Bool.true_eq_false, false_and, if_false, if_neg (Nat.not_lt.mpr small)]
  split
  · exact ⟨_, rfl⟩
  · exact ⟨_, rfl⟩

/-- The session after an event of the history has been kept. -/
structure Kept (before after : Session) (seq : Nat) : Prop where
  last : after.ordered.lastPublishedSeq = before.ordered.lastPublishedSeq
  own : (after.ordered.pending.lookup seq).isSome = true
  others : ∀ other, other ≠ seq →
    after.ordered.pending.lookup other = before.ordered.pending.lookup other
  pending : ∀ other, (before.ordered.pending.lookup other).isSome = true →
    after.ordered.pending.lookup other = before.ordered.pending.lookup other

theorem insertPending_kept {added : OrderedSessionEvents} {event : ExecProcessEvent}
    {seq : Nat} (isSeq : event.seq = some seq)
    (res : session.ordered.insertPending event = .ok added) :
    Kept session { session with ordered := added } seq := by
  rcases insertPending_ok isSeq res with ⟨already, rfl⟩ | ⟨gone, _, rfl⟩
  · exact ⟨rfl, already, fun _ _ => rfl, fun _ _ => rfl⟩
  · have lookup := fun other =>
      lookup_insert_eq_ite session.ordered.pending seq other event
    refine ⟨rfl, ?_, fun other ne => ?_, fun other pends => ?_⟩
    · rw [lookup, if_pos rfl]
      rfl
    · rw [lookup, if_neg ne]
    · rw [lookup, if_neg]
      rintro rfl
      rw [gone] at pends
      cases pends

theorem Sound.insertPending (sound : Sound events session) {added : OrderedSessionEvents}
    {event orig : ExecProcessEvent} {seq : Nat} (isSeq : event.seq = some seq)
    (later : session.ordered.lastPublishedSeq < seq)
    (isAt : events[seq - 1]? = some orig) (same : plain event = plain orig)
    (res : session.ordered.insertPending event = .ok added) :
    Sound events { session with ordered := added } := by
  rcases insertPending_ok isSeq res with ⟨_, rfl⟩ | ⟨_, small, rfl⟩
  · exact sound
  · refine { sound with pending := fun other found lookup => ?_ }
    rw [lookup_insert_eq_ite] at lookup
    split at lookup
    next isOther =>
      cases lookup
      rw [isOther]
      exact ⟨later, small, orig, isAt, same⟩
    · exact sound.pending other found lookup

theorem Sound.markPendingExit (sound : Sound events session) (targetSeq : Nat)
    (refused : Bool) : Sound events
    { session with ordered := session.ordered.markPendingExit targetSeq refused } := by
  unfold OrderedSessionEvents.markPendingExit
  split
  next exitSeq _ =>
    refine { sound with pending := fun seq event lookup => ?_ }
    rw [lookup_modify_eq_ite] at lookup
    split at lookup
    next isExit =>
      rw [map_eq_some_iff] at lookup
      obtain ⟨pre, found, rfl⟩ := lookup
      rw [← isExit] at found
      obtain ⟨later, small, orig, isAt, same⟩ := sound.pending seq pre found
      refine ⟨later, ?_, orig, isAt, (plain_markDenied _ _).trans same⟩
      rw [← retainedLen_plain, plain_markDenied, retainedLen_plain]
      exact small
    · exact sound.pending seq event lookup
  · exact sound

/-- Marking changes no number, and neither what is published nor which numbers are pending. -/
theorem markPendingExit_same (ordered : OrderedSessionEvents) (targetSeq : Nat)
    (refused : Bool) : (ordered.markPendingExit targetSeq refused).lastPublishedSeq =
    ordered.lastPublishedSeq ∧
    (ordered.markPendingExit targetSeq refused).exitPublished = ordered.exitPublished ∧
    (ordered.markPendingExit targetSeq refused).closedPublished = ordered.closedPublished ∧
    ∀ seq, ((ordered.markPendingExit targetSeq refused).pending.lookup seq).isSome =
    (ordered.pending.lookup seq).isSome := by
  unfold markPendingExit
  split
  · refine ⟨rfl, rfl, rfl, fun seq => ?_⟩
    rw [lookup_modify_eq_ite]
    split
    next same =>
      rw [same, isSome_map]
    · rfl
  · exact ⟨rfl, rfl, rfl, fun _ => rfl⟩

/-- What an answer says about the history up to its target. -/
structure Honest (events : List ExecProcessEvent) (response : ReadResponse) (target : Nat) :
    Prop where
  isTarget : response.nextSeq - 1 = target
  noFailure : response.failure = none
  inside : target ≤ events.length
  chunks : ∀ chunk ∈ response.chunks, 0 < chunk.seq ∧ chunk.seq ≤ target ∧
    events[chunk.seq - 1]? = some (.output chunk)
  ascending : response.chunks.Pairwise fun first second => first.seq < second.seq
  exited : response.exited = (events.take target).any ExecProcessEvent.isExited
  exitCode : ∀ (index seq : Nat) (exitCode : Int) (denied : Option Bool), index < target →
    events[index]? = some (.exited seq exitCode denied) → response.exitCode = some exitCode
  closed : response.closed = true → 0 < target ∧ events[target - 1]? = some (.closed target)

variable {reply : ReadResponse} {target : Nat}

theorem getElem?_take_some {index count : Nat} {event : ExecProcessEvent}
    (isAt : (events.take count)[index]? = some event) :
    index < count ∧ events[index]? = some event := by
  rw [getElem?_take] at isAt
  split at isAt
  · exact ⟨by assumption, isAt⟩
  · cases isAt

theorem ServerHistory.exit_of_findSome (log : ServerHistory events) (count index seq : Nat)
    (exitCode : Int) (denied : Option Bool) (isIn : index < count)
    (isAt : events[index]? = some (.exited seq exitCode denied)) :
    (events.take count).findSome? exitCode? = some exitCode := by
  cases found : (events.take count).findSome? exitCode? with
  | none =>
    have gone := findSome?_eq_none_iff.mp found (.exited seq exitCode denied)
      (mem_iff_getElem?.mpr ⟨index, by rw [getElem?_take, if_pos isIn, isAt]⟩)
    cases gone
  | some other =>
    obtain ⟨event, mem, isCode⟩ := exists_of_findSome?_eq_some found
    obtain ⟨pos, positionAt⟩ := mem_iff_getElem?.mp mem
    obtain ⟨_, eventAt⟩ := getElem?_take_some positionAt
    cases event with
    | exited eventSeq eventCode eventDenied =>
      have same := log.exitOnce _ _ _ _ eventAt isAt rfl rfl
      rw [same, isAt] at eventAt
      cases eventAt
      exact isCode.symm
    | _ => cases isCode

theorem honest_answer (log : ServerHistory events) (emitted afterSeq : Nat)
    (retained : List ProcessOutputChunk) (refused : Bool) (isIn : emitted ≤ events.length)
    (suffix : retained <:+ (events.take emitted).filterMap ExecProcessEvent.chunk?) :
    Honest events (answer events emitted retained afterSeq refused) emitted := by
  constructor
  · exact Nat.add_sub_cancel emitted 1
  · rfl
  · exact isIn
  · intro chunk mem
    obtain ⟨event, inTake, isChunk⟩ :=
      mem_filterMap.mp (suffix.subset (mem_filter.mp mem).1)
    obtain ⟨index, isAt⟩ := mem_iff_getElem?.mp inTake
    obtain ⟨early, isAt⟩ := getElem?_take_some isAt
    have isSeq := log.numbered index event isAt
    cases event with
    | output other =>
      cases isChunk
      have same : chunk.seq = index + 1 := some.inj isSeq
      rw [same]
      exact ⟨Nat.succ_pos _, early, isAt⟩
    | _ => cases isChunk
  · refine List.Pairwise.filter _ (List.Pairwise.sublist suffix.sublist ?_)
    rw [pairwise_filterMap, pairwise_iff_getElem]
    intro first second firstInside secondInside less firstChunk isFirst secondChunk isSecond
    have firstAt := (getElem?_take_some (getElem?_eq_getElem firstInside)).2
    have secondAt := (getElem?_take_some (getElem?_eq_getElem secondInside)).2
    have firstSeq := log.numbered first _ firstAt
    have secondSeq := log.numbered second _ secondAt
    rw [seq_of_chunk isFirst] at firstSeq
    rw [seq_of_chunk isSecond] at secondSeq
    have firstEq := some.inj firstSeq
    have secondEq := some.inj secondSeq
    omega
  · change ((events.take emitted).findSome? exitCode?).isSome = _
    rw [isSome_findSome?]
    exact congrArg (events.take emitted).any (funext exitCode_isSome)
  · intro index seq exitCode denied early isAt
    exact log.exit_of_findSome emitted index seq exitCode denied early isAt
  · intro isClosed
    obtain ⟨event, mem, close⟩ := any_eq_true.mp isClosed
    obtain ⟨index, isAt⟩ := mem_iff_getElem?.mp mem
    obtain ⟨early, isAt⟩ := getElem?_take_some isAt
    have last := (log.exitBeforeClose index event isAt close).1
    have same : emitted = index + 1 := by omega
    have isSeq := log.numbered index event isAt
    rw [same]
    refine ⟨Nat.succ_pos _, ?_⟩
    cases event with
    | closed seq =>
      cases some.inj isSeq
      exact isAt
    | _ => cases close

end CodexFormal.ExecServer
