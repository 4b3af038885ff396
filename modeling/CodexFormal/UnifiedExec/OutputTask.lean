import CodexFormal.ExecServer.ProcessEvents
import CodexFormal.Foundation.Machine

/-!
# Collecting the output of an exec-server process

The task follows the events of a process and falls back to a read of what the
server retains when its receiver has lagged or an event is missing.  The system
has the server's process, its event log, the events that are still on their way
to the log, and the task.
-/

set_option autoImplicit false

namespace CodexFormal.UnifiedExec

open Foundation ExecServer Option List
open Patch (Text)

structure ProcessState where
  hasExited : Bool
  exitCode : Option Int
  failureMessage : Option Text
  sandboxDenied : Bool
deriving Repr, DecidableEq

namespace ProcessState

def default : ProcessState :=
  { hasExited := false, exitCode := none, failureMessage := none, sandboxDenied := false }

def exited (state : ProcessState) (exitCode : Option Int) : ProcessState :=
  { state with hasExited := true, exitCode := exitCode }

def failed (state : ProcessState) (message : Text) : ProcessState :=
  { state with hasExited := true, failureMessage := some message }

end ProcessState

inductive OutputTaskStage where
  | receiving
  | reading
  | closed
  | failed
deriving Repr, DecidableEq

structure OutputTask where
  events : ExecProcessEventReceiver
  lastSeq : Nat
  stage : OutputTaskStage
  state : ProcessState
deriving Repr, DecidableEq

namespace OutputTask

variable (task : OutputTask)

def fail (message : Text) : OutputTask :=
  { task with stage := .failed, state := task.state.failed message }

/-- An event after a gap, or an exit that does not say whether the sandbox denied it, is looked
up by a read. -/
def needsRead (event : ExecProcessEvent) : Bool :=
  event.seq.any (fun seq => decide (task.lastSeq + 1 < seq)) ||
    match event with
    | .exited _ _ none => true
    | _ => false

/-- The task after one event, with the chunks that it appends to the output buffer. -/
def handleEvent : ExecProcessEvent → OutputTask × List ProcessOutputChunk
  | .output chunk =>
    if chunk.seq ≤ task.lastSeq then (task, [])
    else ({ task with lastSeq := chunk.seq }, [chunk])
  | .exited seq exitCode sandboxDenied =>
    if seq ≤ task.lastSeq then (task, [])
    else
      let state := { task.state with
        sandboxDenied := task.state.sandboxDenied || sandboxDenied.getD false }
      ({ task with lastSeq := seq, state := state.exited (some exitCode) }, [])
  | .closed seq =>
    if seq ≤ task.lastSeq then (task, []) else ({ task with stage := .closed }, [])
  | .failed message => (task.fail message, [])

def handleReceived : Received → OutputTask × List ProcessOutputChunk
  | .event event =>
    if task.needsRead event then ({ task with stage := .reading }, [])
    else task.handleEvent event
  | .lagged => ({ task with stage := .reading }, [])
  | .closed => (task.fail "exec-server process event stream closed".toList, [])

def stateAfterRead (state : ProcessState) (response : ReadResponse) : ProcessState :=
  let denied := { state with sandboxDenied := state.sandboxDenied || response.sandboxDenied }
  if response.exited then denied.exited response.exitCode else denied

def handleRead : Except Text ReadResponse → OutputTask × List ProcessOutputChunk
  | .error message => (task.fail message, [])
  | .ok response =>
    let chunks := response.chunks.filter fun chunk => decide (task.lastSeq < chunk.seq)
    let read := { task with
      lastSeq := max task.lastSeq (response.nextSeq - 1), stage := .receiving }
    match response.failure with
    | some message => (read.fail message, chunks)
    | none =>
      ({ read with
          state := stateAfterRead read.state response
          stage := if response.closed then .closed else .receiving }, chunks)

end OutputTask

/-- What can be seen of the task: the chunks that it appends, and each read with the process
that it sees. -/
inductive OutputObservation where
  | appended (chunk : ProcessOutputChunk)
  | read (process : RunningProcess)
deriving Repr, DecidableEq

inductive OutputAction where
  | streamOutput (chunk : List UInt8)
  | finishOutputStream
  | watchExit (exitCode : Int) (sandboxDenied : Bool)
  | maybeEmitClosed
  | publish
  | subscribe
  | receive
  | read
deriving Repr, DecidableEq

structure OutputWorld where
  process : RunningProcess
  unpublished : List ExecProcessEvent
  log : ExecProcessEventLog
  task : Option OutputTask
deriving Repr, DecidableEq

namespace OutputWorld

def initial (openStreams eventCapacity byteCapacity liveCapacity : Nat) : OutputWorld :=
  { process := RunningProcess.start openStreams
    unpublished := []
    log := ExecProcessEventLog.new eventCapacity byteCapacity liveCapacity
    task := none }

variable (world : OutputWorld)

def emit (emitted : RunningProcess × ExecProcessEvent) : OutputWorld :=
  { world with process := emitted.1, unpublished := world.unpublished ++ [emitted.2] }

def startTask (log : ExecProcessEventLog) : OutputTask :=
  { events := log.subscribe
    lastSeq := 0
    stage := .receiving
    state := .default }

def observed (chunks : List ProcessOutputChunk) : List OutputObservation :=
  chunks.map .appended

def step (retention : OutputRetention) (world : OutputWorld) :
    OutputAction → Option (OutputWorld × List OutputObservation)
  | .streamOutput chunk =>
    if world.process.openStreams = 0 then none
    else some (world.emit (world.process.streamOutput retention chunk), [])
  | .finishOutputStream =>
    some ({ world with process := world.process.finishOutputStream }, [])
  | .watchExit exitCode sandboxDenied =>
    if world.process.exitCode.isSome then none
    else some (world.emit (world.process.watchExit exitCode sandboxDenied), [])
  | .maybeEmitClosed =>
    world.process.maybeEmitClosed.map fun emitted => (world.emit emitted, [])
  | .publish =>
    match world.unpublished with
    | [] => none
    | event :: rest =>
      some ({ world with unpublished := rest, log := world.log.publish event }, [])
  | .subscribe =>
    if world.task.isSome then none
    else some ({ world with task := some (startTask world.log) }, [])
  | .receive =>
    match world.task with
    | some task =>
      if task.stage = .receiving then
        (world.log.recv task.events).map fun received =>
          let handled := { task with events := received.2 }.handleReceived received.1
          ({ world with task := some handled.1 }, observed handled.2)
      else none
    | none => none
  | .read =>
    match world.task with
    | some task =>
      if task.stage = .reading then
        let handled := task.handleRead (.ok (world.process.execRead task.lastSeq none))
        some ({ world with task := some handled.1 },
          .read world.process :: observed handled.2)
      else none
    | none => none

def emitted : List ExecProcessEvent :=
  world.log.sent ++ world.unpublished

def emittedChunks : List ProcessOutputChunk :=
  world.emitted.filterMap ExecProcessEvent.chunk?

end OutputWorld

def outputMachine (retention : OutputRetention) :
    Machine OutputWorld OutputAction OutputObservation where
  step := OutputWorld.step retention

def OutputObservation.chunk? : OutputObservation → Option ProcessOutputChunk
  | .appended chunk => some chunk
  | .read _ => none

variable (observations : List OutputObservation)

def appendedChunks : List ProcessOutputChunk :=
  observations.filterMap OutputObservation.chunk?

def EvictedAtRead (chunk : ProcessOutputChunk) : Prop :=
  ∃ process, .read process ∈ observations ∧ chunk.seq < process.nextSeq ∧ chunk ∉ process.output

namespace OutputWorld

/-- The emitted events are numbered without gaps, and the process, the log and the task hold
parts of them. -/
structure Faithful (world : OutputWorld) : Prop where
  numbered : ∀ (index : Nat) (event : ExecProcessEvent),
    world.emitted[index]? = some event → event.seq = some (index + 1)
  nextSeq : world.process.nextSeq = world.emitted.length + 1
  retained : world.process.output <:+ world.emittedChunks
  exited : ∀ seq exitCode denied, .exited seq exitCode denied ∈ world.emitted →
    world.process.exitCode = some exitCode
  exitEmitted : ∀ exitCode, world.process.exitCode = some exitCode →
    ∃ seq denied, .exited seq exitCode denied ∈ world.emitted
  closeEmitted : ∀ seq, .closed seq ∈ world.emitted →
    world.process.closed = true ∧ seq = world.emitted.length
  closed : world.process.closed = true →
    world.process.openStreams = 0 ∧ world.process.exitCode.isSome = true ∧
      .closed world.emitted.length ∈ world.emitted
  history : ∀ event ∈ world.log.history, event ∈ world.log.sent
  replay : ∀ task, world.task = some task → ∀ event ∈ task.events.replay, event ∈ world.log.sent

variable {world : OutputWorld}

theorem mem_emittedChunks {chunk : ProcessOutputChunk} :
    chunk ∈ world.emittedChunks ↔ .output chunk ∈ world.emitted := by
  unfold emittedChunks
  rw [mem_filterMap]
  constructor
  · rintro ⟨event, mem, isChunk⟩
    cases event with
    | output other =>
      cases isChunk
      exact mem
    | _ => cases isChunk
  · intro mem
    exact ⟨_, mem, rfl⟩

theorem Faithful.seq_of_mem (sound : Faithful world) (event : ExecProcessEvent)
    (mem : event ∈ world.emitted) :
    ∃ seq, event.seq = some seq ∧ 0 < seq ∧ seq ≤ world.emitted.length := by
  obtain ⟨index, isAt⟩ := List.mem_iff_getElem?.mp mem
  have isIn := (List.getElem?_eq_some_iff.mp isAt).1
  exact ⟨index + 1, sound.numbered index event isAt, Nat.succ_pos index, isIn⟩

theorem Faithful.eq_of_seq (sound : Faithful world) (first second : ExecProcessEvent)
    (firstMem : first ∈ world.emitted) (secondMem : second ∈ world.emitted)
    (same : first.seq = second.seq) : first = second := by
  obtain ⟨firstIndex, firstAt⟩ := List.mem_iff_getElem?.mp firstMem
  obtain ⟨secondIndex, secondAt⟩ := List.mem_iff_getElem?.mp secondMem
  rw [sound.numbered _ _ firstAt, sound.numbered _ _ secondAt] at same
  have sameIndex : firstIndex = secondIndex := Nat.succ.inj (some.inj same)
  subst sameIndex
  exact some.inj (firstAt.symm.trans secondAt)

theorem Faithful.chunks_ascending (sound : Faithful world) :
    world.emittedChunks.Pairwise fun first second => first.seq < second.seq := by
  unfold emittedChunks
  rw [pairwise_filterMap, pairwise_iff_getElem]
  intro i j iInside jInside less first firstChunk second secondChunk
  have firstSeq := sound.numbered i _ (getElem?_eq_getElem iInside)
  have secondSeq := sound.numbered j _ (getElem?_eq_getElem jInside)
  have chunkSeq : ∀ (event : ExecProcessEvent) chunk, event.chunk? = some chunk →
      event.seq = some chunk.seq := by
    intro event chunk isChunk
    cases event with
    | output other =>
      cases isChunk
      rfl
    | _ => cases isChunk
  rw [chunkSeq _ _ firstChunk] at firstSeq
  rw [chunkSeq _ _ secondChunk] at secondSeq
  have firstEq := some.inj firstSeq
  have secondEq := some.inj secondSeq
  omega

variable (process : RunningProcess) (event : ExecProcessEvent)

theorem emitted_emit : (world.emit (process, event)).emitted = world.emitted ++ [event] :=
  (append_assoc _ _ _).symm

theorem emittedChunks_emit :
    (world.emit (process, event)).emittedChunks = world.emittedChunks ++ event.chunk?.toList := by
  rw [emittedChunks, emitted_emit, filterMap_append]
  cases event <;> rfl

/-- One more event of a process that is not closed yet. -/
structure Emission (world : OutputWorld) (process : RunningProcess) (event : ExecProcessEvent) :
    Prop where
  open_ : world.process.closed = false
  seq : event.seq = some world.process.nextSeq
  nextSeq : process.nextSeq = world.process.nextSeq + 1
  retained : process.output <:+ world.process.output ++ event.chunk?.toList
  exit : ∀ exitCode, process.exitCode = some exitCode ↔
    world.process.exitCode = some exitCode ∨ ∃ seq denied, event = .exited seq exitCode denied
  close : process.closed = true ↔ ∃ seq, event = .closed seq
  finished : process.closed = true → process.openStreams = 0 ∧ process.exitCode.isSome = true

theorem Faithful.emit (sound : Faithful world) {process : RunningProcess}
    {event : ExecProcessEvent} (emission : Emission world process event) :
    Faithful (world.emit (process, event)) := by
  have seq : event.seq = some (world.emitted.length + 1) :=
    emission.seq.trans (congrArg some sound.nextSeq)
  have length : (world.emitted ++ [event]).length = world.emitted.length + 1 := by simp
  have noClose : ∀ seq, .closed seq ∉ world.emitted := by
    intro seq mem
    have isClosed := (sound.closeEmitted seq mem).1
    rw [emission.open_] at isClosed
    cases isClosed
  constructor
  · intro index other isAt
    rw [emitted_emit, getElem?_append] at isAt
    split at isAt
    · exact sound.numbered index other isAt
    · have atLast : index - world.emitted.length = 0 ∧ other = event := by
        cases pos : index - world.emitted.length with
        | zero =>
          rw [pos] at isAt
          exact ⟨rfl, (some.inj isAt).symm⟩
        | succ more =>
          rw [pos] at isAt
          cases isAt
      have sameIndex : index = world.emitted.length := by omega
      rw [atLast.2, seq, sameIndex]
  · rw [emitted_emit, length]
    exact emission.nextSeq.trans (congrArg (· + 1) sound.nextSeq)
  · rw [emittedChunks_emit]
    obtain ⟨out, parts⟩ := sound.retained
    refine emission.retained.trans ⟨out, ?_⟩
    rw [← parts, append_assoc]
  · intro otherSeq code denied mem
    rw [emitted_emit, mem_append, mem_singleton] at mem
    refine (emission.exit code).mpr (mem.imp (sound.exited _ _ _) fun same => ?_)
    exact ⟨otherSeq, denied, same.symm⟩
  · intro code isExited
    rw [emitted_emit]
    rcases (emission.exit code).mp isExited with pre | ⟨otherSeq, denied, same⟩
    · obtain ⟨otherSeq, denied, mem⟩ := sound.exitEmitted code pre
      exact ⟨otherSeq, denied, mem_append_left _ mem⟩
    · exact ⟨otherSeq, denied, mem_append_right _ (mem_singleton.mpr same.symm)⟩
  · intro otherSeq mem
    rw [emitted_emit, mem_append, mem_singleton] at mem
    have same := mem.resolve_left (noClose otherSeq)
    subst same
    rw [emitted_emit, length]
    exact ⟨emission.close.mpr ⟨otherSeq, rfl⟩, some.inj seq⟩
  · intro isClosed
    obtain ⟨otherSeq, rfl⟩ := emission.close.mp isClosed
    have sameSeq := some.inj seq
    subst sameSeq
    rw [emitted_emit, length]
    exact ⟨(emission.finished isClosed).1, (emission.finished isClosed).2,
      mem_append_right _ (mem_singleton.mpr rfl)⟩
  · exact sound.history
  · exact sound.replay

/-- The steps by what they do to the emitted events and to the task. -/
inductive StepEffect (world : OutputWorld) : OutputWorld → List OutputObservation → Prop where
  | emits (process : RunningProcess) (event : ExecProcessEvent)
      (emission : Emission world process event) :
      StepEffect world (world.emit (process, event)) []
  | finishesStream :
      StepEffect world { world with process := world.process.finishOutputStream } []
  | publishes (event : ExecProcessEvent) (rest : List ExecProcessEvent)
      (unpublished : world.unpublished = event :: rest) :
      StepEffect world { world with unpublished := rest, log := world.log.publish event } []
  | subscribes (absent : world.task = none) :
      StepEffect world { world with task := some (startTask world.log) } []
  | receives (task : OutputTask) (received : Received) (events : ExecProcessEventReceiver)
      (running : world.task = some task) (receiving : task.stage = .receiving)
      (got : world.log.recv task.events = some (received, events)) :
      StepEffect world
        { world with task := some ({ task with events := events }.handleReceived received).1 }
        (observed ({ task with events := events }.handleReceived received).2)
  | reads (task : OutputTask) (running : world.task = some task)
      (reading : task.stage = .reading) :
      StepEffect world
        { world with
          task := some (task.handleRead (.ok (world.process.execRead task.lastSeq none))).1 }
        (.read world.process ::
          observed (task.handleRead (.ok (world.process.execRead task.lastSeq none))).2)

theorem Faithful.not_closed (sound : Faithful world)
    (unfinished : world.process.openStreams ≠ 0 ∨ world.process.exitCode = none) :
    world.process.closed = false := by
  cases isClosed : world.process.closed with
  | false => rfl
  | true =>
    obtain ⟨noStreams, exited, _⟩ := sound.closed isClosed
    rcases unfinished with streams | alive
    · exact absurd noStreams streams
    · rw [alive] at exited
      cases exited

theorem emission_streamOutput (retention : OutputRetention) (chunk : List UInt8)
    (isOpen : world.process.closed = false) :
    Emission world (world.process.streamOutput retention chunk).1
      (world.process.streamOutput retention chunk).2 where
  open_ := isOpen
  seq := rfl
  nextSeq := rfl
  retained := evictOldest_suffix _ _ _ _ _
  exit := fun code => ⟨.inl, fun either => either.elim id fun ⟨_, _, absurd⟩ => by cases absurd⟩
  close := by
    constructor
    · intro isClosed
      cases isOpen.symm.trans isClosed
    · rintro ⟨_, same⟩
      cases same
  finished := fun isClosed => by cases isOpen.symm.trans isClosed

theorem emission_watchExit (exitCode : Int) (denied : Bool)
    (isOpen : world.process.closed = false) (alive : world.process.exitCode = none) :
    Emission world (world.process.watchExit exitCode denied).1
      (world.process.watchExit exitCode denied).2 where
  open_ := isOpen
  seq := rfl
  nextSeq := rfl
  retained := ⟨[], (append_nil _).symm⟩
  exit := by
    intro other
    constructor
    · intro same
      cases same
      exact .inr ⟨_, _, rfl⟩
    · rintro (pre | ⟨_, _, same⟩)
      · rw [alive] at pre
        cases pre
      · cases same
        rfl
  close := by
    constructor
    · intro isClosed
      cases isOpen.symm.trans isClosed
    · rintro ⟨_, same⟩
      cases same
  finished := fun isClosed => by cases isOpen.symm.trans isClosed

theorem emission_maybeEmitClosed (emitted : world.process.maybeEmitClosed = some (process, event)) :
    Emission world process event := by
  unfold RunningProcess.maybeEmitClosed at emitted
  split at emitted
  · cases emitted
  next ready =>
    cases some.inj emitted
    rw [not_or, not_or, not_not] at ready
    obtain ⟨isOpen, noStreams, exited⟩ := ready
    refine ⟨by simpa using isOpen, rfl, rfl, ⟨[], (append_nil _).symm⟩, ?_,
      ⟨fun _ => ⟨_, rfl⟩, fun _ => rfl⟩, fun _ => ⟨noStreams, isSome_iff_ne_none.mpr exited⟩⟩
    exact fun code => ⟨.inl, fun either => either.elim id fun ⟨_, _, absurd⟩ => by
      cases absurd⟩

open StepEffect

theorem step_effect (retention : OutputRetention) (after : OutputWorld) (act : OutputAction)
    (observations : List OutputObservation) (sound : Faithful world)
    (ran : world.step retention act = some (after, observations)) :
    StepEffect world after observations := by
  cases act with
  | streamOutput chunk =>
    simp only [step] at ran
    split at ran
    · cases ran
    next streams =>
      cases some.inj ran
      exact emits _ _ (emission_streamOutput retention chunk (sound.not_closed (.inl streams)))
  | finishOutputStream =>
    cases some.inj ran
    exact finishesStream
  | watchExit exitCode denied =>
    simp only [step] at ran
    split at ran
    · cases ran
    next alive =>
      cases some.inj ran
      have noExit : world.process.exitCode = none := by simpa using alive
      exact emits _ _
        (emission_watchExit exitCode denied (sound.not_closed (.inr noExit)) noExit)
  | maybeEmitClosed =>
    obtain ⟨⟨process, event⟩, emitted, res⟩ := map_eq_some_iff.mp ran
    cases res
    exact emits process event (emission_maybeEmitClosed process event emitted)
  | publish =>
    simp only [step] at ran
    split at ran
    · cases ran
    next event rest unsent =>
      cases some.inj ran
      exact publishes event rest unsent
  | subscribe =>
    simp only [step] at ran
    split at ran
    · cases ran
    next gone =>
      cases some.inj ran
      exact subscribes (by simpa using gone)
  | receive =>
    simp only [step] at ran
    split at ran
    next task alive =>
      split at ran
      next receiving =>
        obtain ⟨⟨received, events⟩, got, res⟩ := map_eq_some_iff.mp ran
        cases res
        exact receives task received events alive receiving got
      · cases ran
    · cases ran
  | read =>
    simp only [step] at ran
    split at ran
    next task alive =>
      split at ran
      next reading =>
        cases some.inj ran
        exact reads task alive reading
      · cases ran
    · cases ran

theorem mem_sent_of_recv (sound : Faithful world) {task : OutputTask} {event : ExecProcessEvent}
    {events : ExecProcessEventReceiver} (alive : world.task = some task)
    (got : world.log.recv task.events = some (.event event, events)) : event ∈ world.log.sent := by
  unfold ExecProcessEventLog.recv at got
  split at got
  next first rest replay =>
    cases some.inj got
    exact sound.replay task alive event (by rw [replay]; exact mem_cons_self)
  · split at got
    · cases some.inj got
    · obtain ⟨found, isAt, res⟩ := map_eq_some_iff.mp got
      cases res
      exact List.mem_iff_getElem?.mpr ⟨_, isAt⟩

theorem replay_of_recv (log : ExecProcessEventLog) (pre events : ExecProcessEventReceiver)
    (received : Received) (got : log.recv pre = some (received, events)) :
    ∀ event ∈ events.replay, event ∈ pre.replay := by
  unfold ExecProcessEventLog.recv at got
  split at got
  next first rest replay =>
    cases some.inj got
    intro event mem
    rw [replay]
    exact mem_cons_of_mem first mem
  · split at got
    · cases some.inj got
      exact fun event mem => mem
    · obtain ⟨found, isAt, res⟩ := map_eq_some_iff.mp got
      cases res
      exact fun event mem => mem

/-- The log is kept by the process, so its stream does not end. -/
theorem recv_ne_closed (log : ExecProcessEventLog) (pre events : ExecProcessEventReceiver) :
    log.recv pre ≠ some (.closed, events) := by
  intro got
  unfold ExecProcessEventLog.recv at got
  split at got
  · cases some.inj got
  · split at got
    · cases some.inj got
    · obtain ⟨found, _, res⟩ := map_eq_some_iff.mp got
      cases res

theorem emitted_publish (rest : List ExecProcessEvent)
    (unpublished : world.unpublished = event :: rest) :
    OutputWorld.emitted { world with unpublished := rest, log := world.log.publish event } =
      world.emitted := by
  unfold emitted
  rw [unpublished]
  exact append_assoc world.log.sent [event] rest

theorem events_handleReceived (task : OutputTask) (got : Received) :
    (task.handleReceived got).1.events = task.events := by
  cases got with
  | event event =>
    simp only [OutputTask.handleReceived]
    split
    · rfl
    · cases event with
      | failed msg => rfl
      | _ =>
        simp only [OutputTask.handleEvent]
        split <;> rfl
  | _ => rfl

theorem Faithful.step (sound : Faithful world) {after : OutputWorld}
    {observations : List OutputObservation} (effect : StepEffect world after observations) :
    Faithful after := by
  cases effect with
  | emits process event emission => exact sound.emit emission
  | finishesStream =>
    refine { sound with closed := fun isClosed => ?_ }
    obtain ⟨noStreams, rest⟩ := sound.closed isClosed
    exact ⟨by simp [RunningProcess.finishOutputStream, noStreams], rest⟩
  | publishes event rest unsent =>
    have same := emitted_publish event rest unsent
    have sameChunks := congrArg (List.filterMap ExecProcessEvent.chunk?) same
    have sent : ∀ other ∈ world.log.sent, other ∈ (world.log.publish event).sent :=
      fun other mem => mem_append_left [event] mem
    exact
      { numbered := by rw [same]; exact sound.numbered
        nextSeq := by rw [same]; exact sound.nextSeq
        retained := by rw [emittedChunks, sameChunks]; exact sound.retained
        exited := by rw [same]; exact sound.exited
        exitEmitted := by rw [same]; exact sound.exitEmitted
        closeEmitted := by rw [same]; exact sound.closeEmitted
        closed := by rw [same]; exact sound.closed
        history := fun other mem =>
          (world.log.mem_history_publish event other mem).elim
            (fun pre => sent other (sound.history other pre))
            (fun isEvent => by
              rw [isEvent]
              exact mem_append_right _ mem_cons_self)
        replay := fun task alive other mem =>
          sent other (sound.replay task alive other mem) }
  | subscribes gone =>
    refine { sound with replay := fun task alive event mem => ?_ }
    cases alive
    exact sound.history event mem
  | receives task received events alive receiving got =>
    refine { sound with replay := fun other otherRunning event mem => ?_ }
    cases otherRunning
    rw [events_handleReceived] at mem
    exact sound.replay task alive event (replay_of_recv _ _ _ _ got event mem)
  | reads task alive reading =>
    refine { sound with replay := fun other otherRunning event mem => ?_ }
    cases otherRunning
    exact sound.replay task alive event mem

end OutputWorld

end CodexFormal.UnifiedExec
