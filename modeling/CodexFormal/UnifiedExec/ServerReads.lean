import CodexFormal.ExecServer.SessionDelivery
import CodexFormal.UnifiedExec.OutputCollection

/-!
# A running process as a server of sessions

The sessions assume a history of events and answers taken from it.  A process that
streams output, exits and closes while it is read emits such a history.
-/

set_option autoImplicit false

namespace CodexFormal.UnifiedExec.OutputWorld

open Foundation ExecServer List
open ExecProcessEvent (isExited isClosed)

variable (retention : OutputRetention) (world : OutputWorld)

/-- An action that is not possible in a state changes nothing. -/
def attempt (action : OutputAction) : OutputWorld :=
  (world.step retention action).elim world Prod.fst

/-- An exit is emitted once, and a close after it. -/
theorem attempt_emitted (action : OutputAction) :
    (world.attempt retention action).emitted = world.emitted ∨
    ∃ event, (world.attempt retention action).emitted = world.emitted ++ [event] ∧
      (isExited event = true → world.process.exitCode = none) ∧
      (isClosed event = true → world.process.exitCode ≠ none) := by
  unfold attempt
  cases action with
  | streamOutput chunk =>
    simp only [step]
    split
    · exact .inl rfl
    · exact .inr ⟨_, emitted_emit _ _, by rintro ⟨⟩, by rintro ⟨⟩⟩
  | watchExit exitCode denied =>
    simp only [step]
    split
    · exact .inl rfl
    next alive => exact .inr ⟨_, emitted_emit _ _, fun _ => by simpa using alive, by rintro ⟨⟩⟩
  | maybeEmitClosed =>
    simp only [step, RunningProcess.maybeEmitClosed]
    split
    · exact .inl rfl
    next ready => exact .inr ⟨_, emitted_emit _ _, by rintro ⟨⟩, fun _ => by grind⟩
  | publish =>
    simp only [step]
    split
    · exact .inl rfl
    next event rest unpublished => exact .inl (emitted_publish event rest unpublished)
  | _ =>
    simp only [step]
    repeat' split
    all_goals first | exact .inl rfl | (cases world.log.recv _ <;> exact .inl rfl)

variable {world}

theorem Faithful.attempt (sound : Faithful world) (action : OutputAction) :
    Faithful (world.attempt retention action) := by
  unfold OutputWorld.attempt
  cases ran : world.step retention action with
  | none => exact sound
  | some next => exact sound.step (step_effect retention next.1 action next.2 sound ran)

theorem Faithful.hasExited_iff (sound : Faithful world) :
    world.emitted.any isExited = true ↔ world.process.exitCode ≠ none := by
  rw [any_eq_true]
  constructor
  · rintro ⟨event, mem, exits⟩
    cases event with
    | exited seq exitCode denied => simp [sound.exited seq exitCode denied mem]
    | _ => cases exits
  · intro exited
    obtain ⟨exitCode, exited⟩ := Option.ne_none_iff_exists'.mp exited
    obtain ⟨seq, denied, mem⟩ := sound.exitEmitted exitCode exited
    exact ⟨_, mem, rfl⟩

theorem serverHistory_attempt (sound : Faithful world) (history : ServerHistory world.emitted)
    (action : OutputAction) : ServerHistory (world.attempt retention action).emitted := by
  have after := sound.attempt retention action
  rcases attempt_emitted retention world action with same | ⟨event, grown, exits, closes⟩
  · rw [same]
    exact history
  rw [← sound.hasExited_iff] at closes
  have noOther : isExited event = true → ∀ other ∈ world.emitted, isExited other = false := by
    intro new
    have alive := exits new
    have exited := sound.hasExited_iff
    grind
  refine ⟨after.numbered, ?_, ?_⟩
  · intro first second one other oneAt otherAt oneExits otherExits
    rw [grown] at oneAt otherAt
    have old := history.exitOnce first second one other
    grind [mem_of_getElem?]
  · intro index closing isAt isClosing
    have last : index + 1 = (world.attempt retention action).emitted.length := by
      cases closing with
      | closed seq =>
        rw [← (after.closeEmitted seq (mem_of_getElem? isAt)).2]
        exact (Option.some.inj (after.numbered index _ isAt)).symm
      | _ => cases isClosing
    refine ⟨last, ?_⟩
    rw [grown] at isAt last ⊢
    rw [length_append, length_singleton, Nat.add_right_cancel_iff] at last
    subst last
    rw [getElem?_concat_length] at isAt
    cases isAt
    rw [take_left]
    exact closes isClosing

theorem isAnswer_execRead (sound : Faithful world) {events : List ExecProcessEvent}
    (later : world.emitted <+: events) (afterSeq : Nat) :
    IsAnswer events (world.process.execRead afterSeq none) := by
  have taken : events.take world.emitted.length = world.emitted :=
    (prefix_iff_eq_take.mp later).symm
  have exitCode : world.emitted.findSome? exitCode? = world.process.exitCode := by
    cases found : world.emitted.findSome? exitCode? with
    | none =>
      cases exited : world.process.exitCode with
      | none => rfl
      | some exitCode =>
        obtain ⟨seq, denied, mem⟩ := sound.exitEmitted exitCode exited
        cases findSome?_eq_none_iff.mp found _ mem
    | some exitCode =>
      obtain ⟨event, mem, isExit⟩ := exists_of_findSome?_eq_some found
      cases event with
      | exited seq code denied =>
        cases isExit
        exact (sound.exited seq exitCode denied mem).symm
      | _ => cases isExit
  have closed : world.emitted.any isClosed = world.process.closed := by
    rw [Bool.eq_iff_iff, any_eq_true]
    constructor
    · rintro ⟨event, mem, closes⟩
      cases event with
      | closed seq => exact (sound.closeEmitted seq mem).1
      | _ => cases closes
    · exact fun closed => ⟨_, (sound.closed closed).2.2, rfl⟩
  refine ⟨world.emitted.length, world.process.output, afterSeq, world.process.sandboxDenied,
    later.length_le, ?_, ?_⟩
  · rw [taken]
    exact sound.retained
  · rw [RunningProcess.execRead_unlimited, answer, taken, exitCode, closed, sound.nextSeq]

theorem run_serverHistory (actions : List OutputAction) {world : OutputWorld}
    (sound : Faithful world) (history : ServerHistory world.emitted) :
    Faithful (actions.foldl (attempt retention) world) ∧
    ServerHistory (actions.foldl (attempt retention) world).emitted ∧
    world.emitted <+: (actions.foldl (attempt retention) world).emitted := by
  induction actions generalizing world with
  | nil => exact ⟨sound, history, prefix_rfl⟩
  | cons action rest ih =>
    obtain ⟨restFaithful, restHistory, grows⟩ := ih (sound.attempt retention action)
      (serverHistory_attempt retention sound history action)
    refine ⟨restFaithful, restHistory, .trans ?_ grows⟩
    rcases attempt_emitted retention world action with same | ⟨event, grown, _⟩
    · rw [same]
    · rw [grown]
      exact prefix_append _ _

/-- Whatever a process does, it emits a history of the kind that sessions deliver, and each read
is an answer of that history, also of what it is continued to later. -/
theorem reads_answer_serverHistory (openStreams eventCapacity byteCapacity liveCapacity : Nat)
    (earlier later : List OutputAction) (afterSeq : Nat) :
    let before := earlier.foldl (attempt retention)
      (initial openStreams eventCapacity byteCapacity liveCapacity)
    let after := later.foldl (attempt retention) before
    ServerHistory after.emitted ∧ before.emitted <+: after.emitted ∧
      IsAnswer after.emitted (before.process.execRead afterSeq none) := by
  obtain ⟨sound, history, _⟩ := run_serverHistory retention earlier
    (followed_initial openStreams eventCapacity byteCapacity liveCapacity).1
    ⟨nofun, nofun, nofun⟩
  obtain ⟨_, lastHistory, grows⟩ := run_serverHistory retention later sound history
  exact ⟨lastHistory, grows, isAnswer_execRead sound grows afterSeq⟩

end CodexFormal.UnifiedExec.OutputWorld
