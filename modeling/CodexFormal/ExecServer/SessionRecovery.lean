import CodexFormal.ExecServer.SessionDelivery

/-!
# Recovery of process events

The recovery of a session from an answer of the server, followed through its loop
over the chunks.  The exit is put into the first gap before a later chunk, or into
the last gap when nothing else is missing.
-/

set_option autoImplicit false

namespace CodexFormal.ExecServer

open Foundation List
open Patch (Text)

variable {events : List ExecProcessEvent} {session start : Session} {response : ReadResponse}
  {target : Nat} {recovery : Recovery}

/-- What holds of a recovery that goes on, and of the session where it stops. -/
def Ends (stops : Session → Prop) (returns : Recovery → Prop) : Recovering Recovery → Prop
  | .error (_, reached) => stops reached
  | .ok recovery => returns recovery

theorem ends_bind {stops : Session → Prop} {mid returns : Recovery → Prop}
    {first : Recovering Recovery} {next : Recovery → Recovering Recovery}
    (holds : Ends stops mid first)
    (continues : ∀ recovery, mid recovery → Ends stops returns (next recovery)) :
    Ends stops returns (first >>= next) := by
  cases first with
  | error stopped => exact holds
  | ok recovery => exact continues recovery holds

/-! ## Keeping one event and publishing what is ready -/

/-- The session after one event was kept aside and what became next was published. -/
structure Progress (before after : Session) (seq : Nat) (event : ExecProcessEvent) : Prop where
  later : before.ordered.lastPublishedSeq ≤ after.ordered.lastPublishedSeq
  own : seq ≤ after.ordered.lastPublishedSeq ∨
    (after.ordered.pending.lookup seq).isSome = true
  kept : ∀ other, after.ordered.lastPublishedSeq < other →
    (before.ordered.pending.lookup other).isSome = true →
      (after.ordered.pending.lookup other).isSome = true
  published : ∀ other, before.ordered.lastPublishedSeq < other →
    other ≤ after.ordered.lastPublishedSeq →
      (before.ordered.pending.lookup other).isSome = true ∨
        (other = seq ∧ event.retainedLen ≤ maxPendingProcessEventBytes)
  origin : ∀ other found, after.ordered.pending.lookup other = some found →
    before.ordered.pending.lookup other = some found ∨ (other = seq ∧ found = event)

theorem progress_of_inserted {added : OrderedSessionEvents} {event : ExecProcessEvent}
    {seq : Nat} (isSeq : event.seq = some seq)
    (res : session.ordered.insertPending event = .ok added) (after : Session)
    (advanced : Advanced { session with ordered := added } after)
    (pendingLater : ∀ other found, after.ordered.pending.lookup other = some found →
      after.ordered.lastPublishedSeq < other) :
    Progress session after seq event := by
  have kept := insertPending_kept isSeq res
  have last := kept.last
  constructor
  · rw [← last]
    exact advanced.later
  · by_cases early : seq ≤ after.ordered.lastPublishedSeq
    · exact .inl early
    · rw [advanced.kept seq (Nat.not_le.mp early)]
      exact .inr kept.own
  · intro other late pends
    rw [advanced.kept other late, kept.pending other pends]
    exact pends
  · intro other later early
    rw [← last] at later
    have pends := advanced.published other later early
    by_cases isOwn : other = seq
    · rcases insertPending_ok isSeq res with ⟨already, _⟩ | ⟨_, small, _⟩
      · rw [isOwn]
        exact .inl already
      · exact .inr ⟨isOwn, small⟩
    · rw [kept.others other isOwn] at pends
      exact .inl pends
  · intro other found lookup
    rw [advanced.kept other (pendingLater other found lookup)] at lookup
    by_cases isOwn : other = seq
    · rcases insertPending_ok isSeq res with ⟨_, rfl⟩ | ⟨_, _, rfl⟩
      · exact .inl lookup
      · rw [isOwn, FiniteMap.lookup_insert_eq_ite, if_pos rfl] at lookup
        exact .inr ⟨isOwn, (Option.some.inj lookup).symm⟩
    · rw [kept.others other isOwn] at lookup
      exact .inl lookup

theorem Sound.progress (sound : Sound events session) {added : OrderedSessionEvents}
    {event orig : ExecProcessEvent} {seq : Nat} (isSeq : event.seq = some seq)
    (later : session.ordered.lastPublishedSeq < seq)
    (isAt : events[seq - 1]? = some orig) (same : plain event = plain orig)
    (res : session.ordered.insertPending event = .ok added) :
    let after := (Session.publishReady { session with ordered := added }).1
    Sound events after ∧ Drained after ∧ Progress session after seq event := by
  have kept := sound.insertPending isSeq later isAt same res
  have published := kept.publishReady
  exact ⟨published, publishReady_drained _,
    progress_of_inserted isSeq res _ (publishReady_advanced _)
    fun other found lookup => (published.pending other found lookup).1⟩

/-! ## One chunk -/

/-- What the loop keeps: as long as the exit is not known, it is neither published nor
pending. -/
structure Looping (events : List ExecProcessEvent) (target : Nat) (recovery : Recovery) : Prop where
  sound : Sound events recovery.session
  drained : Drained recovery.session
  unknown : recovery.exitKnown = false → ∀ seq, 0 < seq → seq ≤ target → ExitsAt events seq →
    recovery.session.ordered.lastPublishedSeq < seq ∧
      recovery.session.ordered.pending.lookup seq = none

/-- A session between two operations, also where the recovery stops with an error. -/
structure Settled (events : List ExecProcessEvent) (session : Session) : Prop where
  sound : Sound events session
  drained : Drained session

theorem Looping.settled (loop : Looping events target recovery) : Settled events recovery.session :=
  ⟨loop.sound, loop.drained⟩

/-- Before the exit is known, everything comes from the start or from the chunks so far. -/
structure Searching (start : Session) (target : Nat) (done : List ProcessOutputChunk)
    (current : Session) : Prop where
  exitUnpublished : start.ordered.exitPublished = false
  exitNotPending : start.ordered.pendingExit target = none
  later : start.ordered.lastPublishedSeq ≤ current.ordered.lastPublishedSeq
  reached : ∀ seq, start.ordered.lastPublishedSeq < seq →
    seq ≤ current.ordered.lastPublishedSeq →
      (start.ordered.pending.lookup seq).isSome = true ∨
        ∃ chunk ∈ done, chunk.seq = seq ∧ chunk.chunk.length ≤ maxPendingProcessEventBytes
  kept : ∀ seq, current.ordered.lastPublishedSeq < seq →
    (start.ordered.pending.lookup seq).isSome = true →
      (current.ordered.pending.lookup seq).isSome = true
  taken : ∀ chunk ∈ done, chunk.seq ≤ current.ordered.lastPublishedSeq ∨
    (current.ordered.pending.lookup chunk.seq).isSome = true
  origin : ∀ seq, (current.ordered.pending.lookup seq).isSome = true →
    (start.ordered.pending.lookup seq).isSome = true ∨
      ∃ chunk ∈ done, chunk.seq = seq ∧ chunk.chunk.length ≤ maxPendingProcessEventBytes

variable {done : List ProcessOutputChunk}

theorem exists_done_append {seq : Nat} {chunk : ProcessOutputChunk}
    (inDone : ∃ other ∈ done, other.seq = seq ∧ other.chunk.length ≤ maxPendingProcessEventBytes) :
    ∃ other ∈ done ++ [chunk], other.seq = seq ∧
    other.chunk.length ≤ maxPendingProcessEventBytes := by
  obtain ⟨other, mem, rest⟩ := inDone
  exact ⟨other, mem_append_left _ mem, rest⟩

variable {now : Session}

theorem Searching.skip (search : Searching start target done now)
    (chunk : ProcessOutputChunk) (early : chunk.seq ≤ now.ordered.lastPublishedSeq) :
    Searching start target (done ++ [chunk]) now where
  exitUnpublished := search.exitUnpublished
  exitNotPending := search.exitNotPending
  later := search.later
  reached := fun seq later reachedSeq => (search.reached seq later reachedSeq).imp_right
    exists_done_append
  kept := search.kept
  taken := by
    intro other mem
    rcases mem_append.mp mem with inDone | isChunk
    · exact search.taken other inDone
    · rw [mem_singleton.mp isChunk]
      exact .inl early
  origin := fun seq pends => (search.origin seq pends).imp_right exists_done_append

theorem Searching.progress {now next : Session}
    (search : Searching start target done now) (chunk : ProcessOutputChunk)
    (sound : Sound events next) (progress : Progress now next chunk.seq (.output chunk)) :
    Searching start target (done ++ [chunk]) next where
  exitUnpublished := search.exitUnpublished
  exitNotPending := search.exitNotPending
  later := search.later.trans progress.later
  reached := by
    intro seq later early
    by_cases already : seq ≤ now.ordered.lastPublishedSeq
    · exact (search.reached seq later already).imp_right exists_done_append
    · rcases progress.published seq (Nat.not_le.mp already) early with pends | ⟨rfl, small⟩
      · exact (search.origin seq pends).imp_right exists_done_append
      · exact .inr ⟨chunk, mem_append_right _ mem_cons_self, rfl, small⟩
  kept := by
    intro seq late pends
    exact progress.kept seq late
      (search.kept seq (Nat.lt_of_le_of_lt progress.later late) pends)
  taken := by
    intro other mem
    rcases mem_append.mp mem with inDone | isChunk
    · rcases search.taken other inDone with early | pends
      · exact .inl (early.trans progress.later)
      · by_cases reachedSeq : other.seq ≤ next.ordered.lastPublishedSeq
        · exact .inl reachedSeq
        · exact .inr (progress.kept other.seq (Nat.not_le.mp reachedSeq) pends)
    · rw [mem_singleton.mp isChunk]
      exact progress.own
  origin := by
    intro seq pends
    obtain ⟨found, lookup⟩ := Option.isSome_iff_exists.mp pends
    rcases progress.origin seq found lookup with pre | ⟨rfl, rfl⟩
    · exact (search.origin seq (by rw [pre]; rfl)).imp_right exists_done_append
    · exact .inr ⟨chunk, mem_append_right _ mem_cons_self, rfl, (sound.pending _ _ lookup).2.1⟩

open Recovery

/-- An event of the history that is not the exit is kept and what is ready published. -/
theorem Looping.keep (loop : Looping events target recovery) {seq : Nat}
    {event orig : ExecProcessEvent} (isSeq : event.seq = some seq)
    (later : recovery.session.ordered.lastPublishedSeq < seq)
    (isAt : events[seq - 1]? = some orig) (same : plain event = plain orig)
    (notExit : recovery.exitKnown = false → event.isExited = false) : Ends (Settled events)
    (fun next => Looping events target next ∧ next.exitKnown = recovery.exitKnown ∧
    Progress recovery.session next.session seq event)
    ((recovery.insertPending event).map .publishReady) := by
  unfold insertPending
  cases res : recovery.session.ordered.insertPending event with
  | error msg => exact loop.settled
  | ok added =>
    obtain ⟨sound, drained, progress⟩ := loop.sound.progress isSeq later isAt same res
    refine ⟨⟨sound, drained, ?_⟩, rfl, progress⟩
    intro unknown exitSeq pos isIn exits
    obtain ⟨unsent, idle⟩ := loop.unknown unknown exitSeq pos isIn exits
    have ne : exitSeq ≠ seq := by
      rintro rfl
      obtain ⟨exit, exitAt, isExited⟩ := exits
      rw [isAt] at exitAt
      cases exitAt
      rw [← isExited_plain, ← same, isExited_plain, notExit unknown] at isExited
      cases isExited
    have gone : (recovery.session.ordered.pending.lookup exitSeq).isSome ≠ true := by
      rw [idle]
      exact Bool.false_ne_true
    constructor
    · by_contra published
      rcases progress.published exitSeq unsent (Nat.not_lt.mp published) with
        isPending | ⟨isOwn, _⟩
      · exact gone isPending
      · exact ne isOwn
    · rw [Option.eq_none_iff_forall_ne_some]
      intro found lookup
      rcases progress.origin exitSeq found lookup with pre | ⟨isOwn, _⟩
      · rw [idle] at pre
        cases pre
      · exact ne isOwn

theorem Honest.exit_original (honest : Honest events response target)
    (history : ServerHistory events) {seq : Nat} (pos : 0 < seq) (isIn : seq ≤ target)
    (exits : ExitsAt events seq) : ∃ exitCode original, response.exitCode = some exitCode ∧
    events[seq - 1]? = some original ∧
    plain (.exited seq exitCode (some response.sandboxDenied)) = plain original := by
  obtain ⟨event, isAt, isExited⟩ := exits
  have isSeq := history.numbered _ _ isAt
  rw [Nat.sub_add_cancel pos] at isSeq
  cases event with
  | exited eventSeq exitCode denied =>
    cases isSeq
    exact ⟨exitCode, _, honest.exitCode _ _ _ _ (by omega) isAt, isAt, rfl⟩
  | _ => cases isExited

theorem Recovery.insertExit_of_exitCode {exitCode : Int} {seq : Nat}
    (isCode : response.exitCode = some exitCode) : recovery.insertExit response seq =
    recovery.insertPending (.exited seq exitCode (some response.sandboxDenied)) := by
  unfold insertExit
  rw [isCode]

section

variable (loop : Looping events target recovery) (log : ServerHistory events)
  (honest : Honest events response target)

include loop log honest

theorem Looping.fillGap (chunk : ProcessOutputChunk) (isIn : chunk.seq ≤ target)
    (gapIsExit : response.exited = true → recovery.exitKnown = false →
    recovery.session.ordered.lastPublishedSeq + 1 < chunk.seq →
    ExitsAt events (recovery.session.ordered.lastPublishedSeq + 1)) : Ends (Settled events)
    (fun next => Looping events target next ∧ (next.exitKnown = false → next = recovery))
    (recovery.fillGap response chunk) := by
  simp only [Recovery.fillGap]
  split
  next guesses =>
    obtain ⟨exited, unknown, late⟩ := guesses
    obtain ⟨code, orig, isCode, isAt, same⟩ := honest.exit_original log
      (Nat.succ_pos _) (by omega) (gapIsExit exited unknown late)
    rw [insertExit_of_exitCode isCode]
    unfold insertPending
    cases res : recovery.session.ordered.insertPending
      (.exited (recovery.session.ordered.lastPublishedSeq + 1) code
      (some response.sandboxDenied)) with
    | error msg => exact loop.settled
    | ok added =>
      obtain ⟨sound, drained, progress⟩ :=
        loop.sound.progress rfl (Nat.lt_succ_self _) isAt same res
      exact ⟨⟨sound, drained, fun known => by cases known⟩,
        fun known => by cases known⟩
  · exact ⟨loop, fun _ => rfl⟩

theorem Looping.recoverChunk
    (search : recovery.exitKnown = false → Searching start target done recovery.session)
    (chunk : ProcessOutputChunk) (mem : chunk ∈ response.chunks)
    (gapIsExit : response.exited = true → recovery.exitKnown = false →
    recovery.session.ordered.lastPublishedSeq + 1 < chunk.seq →
    ExitsAt events (recovery.session.ordered.lastPublishedSeq + 1)) : Ends (Settled events)
    (fun next => Looping events target next ∧
    (next.exitKnown = false → Searching start target (done ++ [chunk]) next.session))
    (recovery.recoverChunk target response chunk) := by
  obtain ⟨_, isIn, isAt⟩ := honest.chunks chunk mem
  unfold Recovery.recoverChunk
  rw [if_neg (Nat.not_lt.mpr isIn)]
  refine ends_bind (loop.fillGap log honest chunk isIn gapIsExit) ?_
  rintro full ⟨filledLoop, unfilled⟩
  split
  next later =>
    have kept := filledLoop.keep (rfl : (ExecProcessEvent.output chunk).seq = _) later isAt rfl
      (fun _ => rfl)
    cases res : (full.insertPending (.output chunk)).map publishReady with
    | error stopped =>
      rw [res] at kept
      exact kept
    | ok next =>
      rw [res] at kept
      obtain ⟨nextLoop, sameKnown, progress⟩ := kept
      refine ⟨nextLoop, fun unknown => ?_⟩
      rw [sameKnown] at unknown
      have same := unfilled unknown
      subst same
      exact (search unknown).progress chunk nextLoop.sound progress
  next early =>
    refine ⟨filledLoop, fun unknown => ?_⟩
    have same := unfilled unknown
    subst same
    exact (search unknown).skip chunk (Nat.not_lt.mp early)

end

/-! ## The loop over the chunks -/

section

variable {chunk : ProcessOutputChunk} {rest : List ProcessOutputChunk}
  (scan : Searching start target done now)

include scan

theorem Searching.next_absent (drained : Drained now) (honest : Honest events response target)
    (split : done ++ chunk :: rest = response.chunks)
    (late : now.ordered.lastPublishedSeq + 1 < chunk.seq) :
    start.ordered.pending.lookup (now.ordered.lastPublishedSeq + 1) = none ∧
    ∀ other ∈ response.chunks, other.seq ≠ now.ordered.lastPublishedSeq + 1 := by
  constructor
  · cases found : start.ordered.pending.lookup (now.ordered.lastPublishedSeq + 1) with
    | none => rfl
    | some event =>
      have pends := scan.kept _ (Nat.lt_succ_self _) (by rw [found]; rfl)
      rw [drained] at pends
      cases pends
  · have ascending := honest.ascending
    rw [← split, pairwise_append, pairwise_cons] at ascending
    obtain ⟨_, ⟨afterChunk, _⟩, _⟩ := ascending
    intro other mem isNext
    rw [← split, mem_append, mem_cons] at mem
    rcases mem with inDone | rfl | inRest
    · rcases scan.taken other inDone with early | pends
      · omega
      · rw [isNext, drained] at pends
        cases pends
    · omega
    · have := afterChunk other inRest
      omega

theorem Searching.gap_isExit
    (alive : start.ordered.failure = none) (isOpen : start.ordered.closedPublished = false)
    (gaps : FirstGapIsExit events start response)
    (drained : Drained now) (honest : Honest events response target)
    (split : done ++ chunk :: rest = response.chunks) (exited : response.exited = true)
    (late : now.ordered.lastPublishedSeq + 1 < chunk.seq) :
    ExitsAt events (now.ordered.lastPublishedSeq + 1) := by
  obtain ⟨idle, noChunk⟩ := scan.next_absent drained honest split late
  refine gaps ⟨alive, isOpen, exited, scan.exitUnpublished, ?_⟩ _
    ⟨Nat.lt_succ_of_le scan.later, idle, noChunk, ?_, ?_⟩
  · rw [honest.isTarget]
    exact scan.exitNotPending
  · intro seq later pre
    refine (scan.reached seq later (Nat.le_of_lt_succ pre)).imp_right ?_
    rintro ⟨other, inDone, same⟩
    exact ⟨other, split ▸ mem_append_left _ inDone, same⟩
  · exact ⟨chunk, split ▸ mem_append_right _ mem_cons_self, late⟩

end

theorem Looping.recoverChunks (history : ServerHistory events)
    (honest : Honest events response target) (alive : start.ordered.failure = none)
    (isOpen : start.ordered.closedPublished = false)
    (gaps : FirstGapIsExit events start response) (rest : List ProcessOutputChunk)
    (loop : Looping events target recovery)
    (search : recovery.exitKnown = false → Searching start target done recovery.session)
    (split : done ++ rest = response.chunks) : Ends (Settled events) (Looping events target)
    (recoverChunks target response recovery rest) := by
  induction rest generalizing recovery done with
  | nil => exact loop
  | cons chunk rest ih =>
    have mem : chunk ∈ response.chunks :=
      split ▸ mem_append_right _ mem_cons_self
    refine ends_bind (loop.recoverChunk history honest search chunk mem ?_) ?_
    · intro exited unknown late
      exact (search unknown).gap_isExit alive isOpen gaps loop.drained honest split exited late
    · rintro next ⟨nextLoop, nextSearch⟩
      exact ih nextLoop nextSearch (by rw [append_assoc]; exact split)

/-! ## The end of a recovery -/

/-- After the close is put in: as in the loop, but the close itself may be what comes next. -/
structure Closing (events : List ExecProcessEvent) (target : Nat) (recovery : Recovery) : Prop where
  sound : Sound events recovery.session
  unknown : recovery.exitKnown = false → ∀ seq, 0 < seq → seq ≤ target → ExitsAt events seq →
    recovery.session.ordered.lastPublishedSeq < seq ∧
      recovery.session.ordered.pending.lookup seq = none
  next : Drained recovery.session ∨
    (recovery.session.ordered.lastPublishedSeq + 1 = target ∧
      (recovery.session.ordered.pending.lookup target).isSome = true)

theorem Looping.closing (loop : Looping events target recovery) : Closing events target recovery :=
  ⟨loop.sound, loop.unknown, .inl loop.drained⟩

theorem Looping.insertClose (loop : Looping events target recovery)
    (pos : 0 < target) (closes : events[target - 1]? = some (.closed target)) :
    Ends (Settled events) (Closing events target) (recovery.insertClose target) := by
  unfold Recovery.insertClose
  split
  · exact loop.closing
  next unclosed =>
    have later : recovery.session.ordered.lastPublishedSeq < target := by
      by_contra published
      refine unclosed (.inl ?_)
      rw [loop.sound.close, any_eq_true]
      refine ⟨.closed target, mem_iff_getElem?.mpr ⟨target - 1, ?_⟩, rfl⟩
      rw [getElem?_take, if_pos (by omega), closes]
    unfold insertPending
    cases res : recovery.session.ordered.insertPending (.closed target) with
    | error msg => exact loop.settled
    | ok added =>
      have isSeq : (ExecProcessEvent.closed target).seq = some target := rfl
      have kept := insertPending_kept isSeq res
      refine ⟨loop.sound.insertPending isSeq later closes rfl res, ?_, ?_⟩
      · intro unknown seq seqPositive isIn exits
        obtain ⟨unsent, idle⟩ := loop.unknown unknown seq seqPositive isIn exits
        have ne : seq ≠ target := by
          rintro rfl
          obtain ⟨event, isAt, isExited⟩ := exits
          rw [closes] at isAt
          cases isAt
          cases isExited
        refine ⟨?_, (kept.others seq ne).trans idle⟩
        exact kept.last.symm ▸ unsent
      · by_cases isNext : recovery.session.ordered.lastPublishedSeq + 1 = target
        · exact .inr ⟨kept.last.symm ▸ isNext, kept.own⟩
        · refine .inl ?_
          change added.pending.lookup (added.lastPublishedSeq + 1) = none
          have last : added.lastPublishedSeq =
            recovery.session.ordered.lastPublishedSeq := kept.last
          rw [last]
          exact (kept.others _ isNext).trans loop.drained

/-! ### What is missing -/

namespace OrderedSessionEvents

variable (ordered : OrderedSessionEvents)

def absentSeqs (targetSeq : Nat) : List Nat :=
  (ordered.unpublishedSeqs targetSeq).filter fun seq => !(ordered.pending.lookup seq).isSome

theorem missingCount_eq (targetSeq : Nat) :
    ordered.missingCount targetSeq = (ordered.absentSeqs targetSeq).length := by
  have parts := length_eq_length_filter_add (l := ordered.unpublishedSeqs targetSeq)
    fun seq => (ordered.pending.lookup seq).isSome
  have total : (ordered.unpublishedSeqs targetSeq).length =
    targetSeq - ordered.lastPublishedSeq := length_range'
  simp only [missingCount, absentSeqs]
  omega

theorem mem_absentSeqs (targetSeq seq : Nat) : seq ∈ ordered.absentSeqs targetSeq ↔
    (ordered.lastPublishedSeq < seq ∧ seq ≤ targetSeq) ∧ ordered.pending.lookup seq = none := by
  unfold absentSeqs unpublishedSeqs
  rw [mem_filter, mem_range'_1, Bool.not_eq_true', Option.isSome_eq_false_iff,
    Option.isNone_iff_eq_none]
  refine and_congr_left fun _ => ?_
  omega

theorem firstMissingFrom_eq (left expected seq : Nat) (starts : expected ≤ seq)
    (pre : seq < expected + left) (pending : ∀ other, expected ≤ other → other < seq →
    (ordered.pending.lookup other).isSome = true) (gone : ordered.pending.lookup seq = none) :
    ordered.firstMissingFrom left expected = seq := by
  induction left generalizing expected with
  | zero => omega
  | succ left ih =>
    unfold firstMissingFrom
    by_cases isSeq : expected = seq
    · rw [isSeq, gone]
      rfl
    · rw [if_pos (pending expected Nat.le.refl (by omega))]
      exact ih (expected + 1) (by omega) (by omega)
        fun other later => pending other (by omega)

end OrderedSessionEvents

/-- Everything up to the target is pending. -/
def Complete (session : Session) (target : Nat) : Prop :=
  ∀ seq, session.ordered.lastPublishedSeq < seq → seq ≤ target →
    (session.ordered.pending.lookup seq).isSome = true

theorem complete_of_nothing_missing (none_missing : session.ordered.missingCount target = 0) :
    Complete session target := by
  intro seq later early
  rw [OrderedSessionEvents.missingCount_eq, length_eq_zero_iff] at none_missing
  cases found : session.ordered.pending.lookup seq with
  | some event => rfl
  | none =>
    have gone := (session.ordered.mem_absentSeqs target seq).mpr ⟨⟨later, early⟩, found⟩
    rw [none_missing] at gone
    cases gone

theorem pending_of_one_missing {missing : Nat}
    (one_missing : session.ordered.missingCount target = 1)
    (gone : missing ∈ session.ordered.absentSeqs target) {seq : Nat}
    (later : session.ordered.lastPublishedSeq < seq) (early : seq ≤ target)
    (ne : seq ≠ missing) : (session.ordered.pending.lookup seq).isSome = true := by
  rw [OrderedSessionEvents.missingCount_eq, length_eq_one_iff] at one_missing
  obtain ⟨only, isOnly⟩ := one_missing
  cases found : session.ordered.pending.lookup seq with
  | some event => rfl
  | none =>
    have alsoAbsent := (session.ordered.mem_absentSeqs target seq).mpr ⟨⟨later, early⟩, found⟩
    rw [isOnly, mem_singleton] at gone alsoAbsent
    exact absurd (alsoAbsent.trans gone.symm) ne

theorem publishReady_reaches (complete : Complete session target) :
    target ≤ session.publishReady.1.ordered.lastPublishedSeq := by
  have advanced := publishReady_advanced session
  have drained := publishReady_drained session
  by_contra short
  have pends := complete (session.publishReady.1.ordered.lastPublishedSeq + 1)
    (Nat.lt_succ_of_le advanced.later) (Nat.not_le.mp short)
  rw [← advanced.kept _ (Nat.lt_succ_self _), drained] at pends
  cases pends

theorem Closing.completeExit (closing : Closing events target recovery)
    (history : ServerHistory events) (honest : Honest events response target) :
    Ends (Settled events) (fun next => Sound events next.session ∧ Complete next.session target)
    (recovery.completeExit response target) := by
  simp only [Recovery.completeExit]
  split
  next unknown =>
    obtain ⟨exited, unknown⟩ := unknown
    rw [honest.exited, any_eq_true] at exited
    obtain ⟨exit, mem, isExited⟩ := exited
    obtain ⟨index, isAt⟩ := mem_iff_getElem?.mp mem
    obtain ⟨isIn, isAt⟩ := getElem?_take_some isAt
    have exits : ExitsAt events (index + 1) := ⟨exit, isAt, isExited⟩
    obtain ⟨unsent, idle⟩ :=
      closing.unknown unknown (index + 1) (Nat.succ_pos _) isIn exits
    -- The exit lies before a close that has been put in, so the close is not next.
    have drained : Drained recovery.session := by
      rcases closing.next with drained | ⟨isNext, pends⟩
      · exact drained
      · have isTarget : index + 1 = target := by omega
        rw [← isTarget, idle] at pends
        cases pends
    have settled : Settled events recovery.session := ⟨closing.sound, drained⟩
    split
    · exact settled
    next one_missing =>
      rw [not_not] at one_missing
      have gone := (recovery.session.ordered.mem_absentSeqs target (index + 1)).mpr
        ⟨⟨unsent, isIn⟩, idle⟩
      have isMissing : recovery.session.ordered.firstMissingSeq target = index + 1 :=
        recovery.session.ordered.firstMissingFrom_eq _ _ _ unsent (by omega)
          (fun other later pre =>
            pending_of_one_missing one_missing gone later (by omega) (by omega)) idle
      obtain ⟨code, orig, isCode, originalAt, same⟩ :=
        honest.exit_original history (Nat.succ_pos _) isIn exits
      rw [isMissing, insertExit_of_exitCode isCode]
      unfold insertPending
      cases res : recovery.session.ordered.insertPending
        (.exited (index + 1) code (some response.sandboxDenied)) with
      | error msg => exact settled
      | ok added =>
        have isSeq : (ExecProcessEvent.exited (index + 1) code
          (some response.sandboxDenied)).seq = some (index + 1) := rfl
        have kept := insertPending_kept isSeq res
        refine ⟨closing.sound.insertPending isSeq unsent originalAt same res, ?_⟩
        intro seq later early
        by_cases isExit : seq = index + 1
        · rw [isExit]
          exact kept.own
        · have pre : recovery.session.ordered.lastPublishedSeq < seq := kept.last ▸ later
          have pends := pending_of_one_missing one_missing gone pre early isExit
          exact (kept.pending seq pends).symm ▸ pends
  · split
    next some_missing =>
      refine ⟨closing.sound, ?_⟩
      rcases closing.next with drained | ⟨isNext, pends⟩
      · exact drained
      · refine absurd ?_ some_missing
        rw [OrderedSessionEvents.missingCount_eq, length_eq_zero_iff, eq_nil_iff_forall_not_mem]
        intro seq gone
        obtain ⟨⟨later, early⟩, idle⟩ :=
          (recovery.session.ordered.mem_absentSeqs target seq).mp gone
        have isTarget : seq = target := by omega
        rw [isTarget] at idle
        rw [idle] at pends
        cases pends
    next none_missing =>
      rw [not_not] at none_missing
      exact ⟨closing.sound, complete_of_nothing_missing none_missing⟩

/-! ## A whole recovery -/

def marked (session : Session) (response : ReadResponse) (target : Nat) : Session :=
  { session with ordered := session.ordered.markPendingExit target response.sandboxDenied }

theorem marked_of_notPending (idle : session.ordered.pendingExit target = none) :
    marked session response target = session := by
  unfold marked OrderedSessionEvents.markPendingExit
  rw [idle]

theorem marked_drained (drained : Drained session) : Drained (marked session response target) := by
  obtain ⟨last, _, _, pending⟩ :=
    markPendingExit_same session.ordered target response.sandboxDenied
  have isNone : (session.ordered.pending.lookup (session.ordered.lastPublishedSeq + 1)).isSome =
      false := by
    rw [drained]
    rfl
  rw [← pending, ← last] at isNone
  exact Option.not_isSome_iff_eq_none.mp (Bool.eq_false_iff.mp isNone)

def Recovery.first (session : Session) (response : ReadResponse) (target : Nat) : Recovery where
  session := marked session response target
  exitKnown := session.ordered.exitPublished || (session.ordered.pendingExit target).isSome
  publishedClosed := false

theorem exit_unknown (unknown : (first session response target).exitKnown = false) :
    session.ordered.exitPublished = false ∧ session.ordered.pendingExit target = none := by
  obtain ⟨unsent, idle⟩ := Bool.or_eq_false_iff.mp unknown
  exact ⟨unsent, Option.not_isSome_iff_eq_none.mp (Bool.eq_false_iff.mp idle)⟩

theorem pendingExit_none {seq : Nat} {event : ExecProcessEvent}
    (idle : session.ordered.pendingExit target = none) (isIn : seq ≤ target)
    (found : session.ordered.pending.lookup seq = some event) : event.isExited = false := by
  have all := find?_eq_none.mp idle seq (mem_range.mpr (Nat.lt_succ_of_le isIn))
  rw [found] at all
  exact Bool.eq_false_iff.mpr all

theorem Sound.first_looping (sound : Sound events session) (drained : Drained session)
    (response : ReadResponse) (target : Nat) :
    Looping events target (.first session response target) where
  sound := sound.markPendingExit target response.sandboxDenied
  drained := marked_drained drained
  unknown := by
    intro unknown seq pos isIn exits
    obtain ⟨unsent, idle⟩ := exit_unknown unknown
    obtain ⟨event, isAt, isExited⟩ := exits
    change (marked session response target).ordered.lastPublishedSeq < seq ∧
      (marked session response target).ordered.pending.lookup seq = none
    rw [marked_of_notPending idle]
    constructor
    · by_contra published
      rw [sound.exit, any_eq_false] at unsent
      refine unsent event (mem_iff_getElem?.mpr ⟨seq - 1, ?_⟩) isExited
      rw [getElem?_take, if_pos (by omega), isAt]
    · rw [Option.eq_none_iff_forall_ne_some]
      intro found lookup
      obtain ⟨_, _, orig, originalAt, same⟩ := sound.pending seq found lookup
      have notExited := pendingExit_none idle isIn lookup
      rw [isAt] at originalAt
      cases originalAt
      rw [← isExited_plain, same, isExited_plain, isExited] at notExited
      cases notExited

theorem first_searching (unknown : (first session response target).exitKnown = false) :
    Searching (marked session response target) target []
    (first session response target).session := by
  obtain ⟨unsent, idle⟩ := exit_unknown unknown
  change Searching _ target [] (marked session response target)
  rw [marked_of_notPending idle]
  exact
    { exitUnpublished := unsent
      exitNotPending := idle
      later := Nat.le_refl _
      reached := fun seq later early => absurd early (Nat.not_le.mpr later)
      kept := fun _ _ pends => pends
      taken := fun _ mem => by cases mem
      origin := fun _ pends => .inl pends }

theorem pendingExit_markPendingExit {ordered : OrderedSessionEvents} {targetSeq other : Nat}
    {refused : Bool} : (ordered.markPendingExit targetSeq refused).pendingExit other =
    ordered.pendingExit other := by
  unfold OrderedSessionEvents.pendingExit
  congr 1
  funext seq
  unfold OrderedSessionEvents.markPendingExit
  split
  · rw [FiniteMap.lookup_modify_eq_ite]
    split
    next same =>
      rw [same, Option.any_map]
      congr 1
      funext event
      cases event <;> rfl
    · rfl
  · rfl

theorem marked_gaps (gaps : FirstGapIsExit events session response)
    (isTarget : response.nextSeq - 1 = target) :
    FirstGapIsExit events (marked session response target) response := by
  intro lacks
  have notPending : session.ordered.pendingExit target = none := by
    rw [← isTarget, ← pendingExit_markPendingExit]
    exact lacks.notPending
  rw [marked_of_notPending notPending] at lacks ⊢
  exact gaps lacks

theorem closeConflicts_eq_false (sound : Sound events session)
    (honest : Honest events response target) : session.closeConflicts response target = false := by
  unfold Session.closeConflicts
  cases isClosed : response.closed with
  | false => rfl
  | true =>
    obtain ⟨_, closes⟩ := honest.closed isClosed
    rw [Bool.true_and, Bool.or_eq_false_iff]
    constructor
    · cases found : session.ordered.pending.lookup target with
      | none => rfl
      | some event =>
        obtain ⟨_, _, orig, isAt, same⟩ := sound.pending target event found
        rw [closes] at isAt
        cases isAt
        have close : event.isClosed = true := by
          rw [← isClosed_plain, same]
          rfl
        simp [close]
    · rw [any_eq_false]
      intro chunk mem isTarget
      have isAt := (honest.chunks chunk mem).2.2
      rw [of_decide_eq_true isTarget, closes] at isAt
      cases isAt

/-- The recovery after its loop and after the close has been put in. -/
def Recovery.complete (response : ReadResponse) (target : Nat) (closed : Recovery) :
    Recovering Recovery :=
  closed.completeExit response target >>= fun completed => .ok completed.publishReady

theorem recover_eq (sound : Sound events session) (honest : Honest events response target) :
    session.recover response = (recoverChunks target response (first session response target)
        response.chunks >>= fun chunked => if response.closed = true then
            chunked.insertClose target >>= complete response target
          else complete response target chunked) := by
  have agrees := closeConflicts_eq_false
    (sound.markPendingExit target response.sandboxDenied) honest
  simp only [Session.recover, honest.isTarget, agrees]
  rfl

theorem Closing.complete (closing : Closing events target recovery)
    (history : ServerHistory events) (honest : Honest events response target) :
    Ends (Settled events) (fun next => Settled events next.session ∧
    target ≤ next.session.ordered.lastPublishedSeq) (complete response target recovery) := by
  refine ends_bind (closing.completeExit history honest) ?_
  rintro completed ⟨sound, complete⟩
  exact ⟨⟨sound.publishReady, publishReady_drained _⟩, publishReady_reaches complete⟩

/-- A recovery that takes no wrong number for the exit keeps the session sound, and one that
succeeds has published everything up to its target. -/
theorem Sound.recover (sound : Sound events session) (drained : Drained session)
    (isOpen : session.ordered.closedPublished = false) (history : ServerHistory events)
    (honest : Honest events response target) (gaps : FirstGapIsExit events session response) :
    Ends (Settled events) (fun next => Settled events next.session ∧
    target ≤ next.session.ordered.lastPublishedSeq) (session.recover response) := by
  rw [recover_eq sound honest]
  have same := markPendingExit_same session.ordered target response.sandboxDenied
  refine ends_bind (Looping.recoverChunks history honest
    (sound.markPendingExit target response.sandboxDenied).alive (same.2.2.1.trans isOpen)
    (marked_gaps gaps honest.isTarget) response.chunks
    (sound.first_looping drained response target) first_searching rfl) ?_
  intro chunked loop
  split
  next isClosed =>
    obtain ⟨pos, closes⟩ := honest.closed isClosed
    exact ends_bind (loop.insertClose pos closes)
      fun closed closing => closing.complete history honest
  · exact loop.closing.complete history honest

end CodexFormal.ExecServer
