import CodexFormal.UnifiedExec.OutputTask

/-!
# Output is collected exactly once

What the task has appended is followed along every interleaving of the process,
the log and the task: in sequence order, without repeats, and complete but for
chunks that the server had evicted when they were read.
-/

set_option autoImplicit false

namespace CodexFormal.UnifiedExec

open Foundation ExecServer List OutputTask

namespace OutputWorld

/-- What the task has done with the events up to its last number. -/
structure Collected (history : List OutputObservation) (world : OutputWorld)
    (task : OutputTask) : Prop where
  ordered : (appendedChunks history).Pairwise fun first second => first.seq < second.seq
  passed : ∀ chunk ∈ appendedChunks history,
    chunk ∈ world.emittedChunks ∧ chunk.seq ≤ task.lastSeq
  covered : ∀ chunk ∈ world.emittedChunks, chunk.seq ≤ task.lastSeq →
    chunk ∈ appendedChunks history ∨ EvictedAtRead history chunk
  reads : ∀ process, .read process ∈ history → process.nextSeq ≤ world.process.nextSeq ∧
    ∀ chunk ∈ world.process.output, chunk.seq < process.nextSeq → chunk ∈ process.output
  bound : task.lastSeq ≤ world.emitted.length
  exited : ∀ seq exitCode denied, .exited seq exitCode denied ∈ world.emitted →
    seq ≤ task.lastSeq → task.state.hasExited = true ∧ task.state.exitCode = some exitCode
  running : task.stage ≠ .closed → ∀ seq, .closed seq ∈ world.emitted → task.lastSeq < seq
  stopped : task.stage = .closed →
    world.process.closed = true ∧ world.emitted.length ≤ task.lastSeq + 1
  notFailed : task.stage ≠ .failed

variable {world : OutputWorld} {history : List OutputObservation} {task : OutputTask}

theorem appendedChunks_append (first second : List OutputObservation) :
    appendedChunks (first ++ second) = appendedChunks first ++ appendedChunks second :=
  filterMap_append

variable (chunks : List ProcessOutputChunk)

theorem appendedChunks_observed : appendedChunks (observed chunks) = chunks := by
  unfold appendedChunks observed
  rw [filterMap_map]
  exact filterMap_some

variable (process : RunningProcess)

theorem appendedChunks_read (chunks : List ProcessOutputChunk) :
    appendedChunks (.read process :: observed chunks) = chunks :=
  appendedChunks_observed chunks

theorem read_mem_observed (chunks : List ProcessOutputChunk) : .read process ∉ observed chunks := by
  intro mem
  obtain ⟨chunk, _, same⟩ := mem_map.mp mem
  cases same

theorem eq_output_of_chunk {event : ExecProcessEvent} {chunk : ProcessOutputChunk}
    (mem : chunk ∈ event.chunk?.toList) : event = .output chunk := by
  cases event with
  | output other =>
    cases mem_singleton.mp mem
    rfl
  | _ => cases mem

theorem evictedAtRead_append {chunk : ProcessOutputChunk} (more : List OutputObservation)
    (out : EvictedAtRead history chunk) : EvictedAtRead (history ++ more) chunk := by
  obtain ⟨process, seen, pre, gone⟩ := out
  exact ⟨process, mem_append_left more seen, pre, gone⟩

theorem collected_start (faithful : Faithful world) :
    Collected [] { world with task := some (startTask world.log) } (startTask world.log) where
  ordered := List.Pairwise.nil
  passed := by
    intro chunk gone
    cases gone
  covered := by
    intro chunk mem early
    obtain ⟨seq, same, pos, _⟩ := faithful.seq_of_mem _ (mem_emittedChunks.mp mem)
    cases same
    exact absurd early (Nat.not_le.mpr pos)
  reads := by
    intro process gone
    cases gone
  bound := Nat.zero_le _
  exited := by
    intro seq code denied mem early
    obtain ⟨found, same, pos, _⟩ := faithful.seq_of_mem _ mem
    cases same
    exact absurd early (Nat.not_le.mpr pos)
  running := by
    intro _ seq mem
    obtain ⟨found, same, pos, _⟩ := faithful.seq_of_mem _ mem
    cases same
    exact pos
  stopped := by
    intro stage
    cases stage
  notFailed := by
    intro stage
    cases stage

section

variable (sound : Faithful world) (collected : Collected history world task)

include sound collected

theorem Collected.emit {process : RunningProcess} {event : ExecProcessEvent}
    (emission : Emission world process event) :
    Collected history (world.emit (process, event)) task := by
  have seq : event.seq = some (world.emitted.length + 1) :=
    emission.seq.trans (congrArg some sound.nextSeq)
  have bound := collected.bound
  have notStopped : task.stage ≠ .closed := by
    intro stage
    have isClosed := (collected.stopped stage).1
    rw [emission.open_] at isClosed
    cases isClosed
  constructor
  · exact collected.ordered
  · intro chunk added
    obtain ⟨mem, early⟩ := collected.passed chunk added
    rw [emittedChunks_emit]
    exact ⟨mem_append_left _ mem, early⟩
  · intro chunk mem early
    rw [emittedChunks_emit, mem_append] at mem
    rcases mem with pre | new
    · exact collected.covered chunk pre early
    · rw [eq_output_of_chunk new] at seq
      have late : chunk.seq = world.emitted.length + 1 := Option.some.inj seq
      omega
  · intro snapshot seen
    obtain ⟨earlier, kept⟩ := collected.reads snapshot seen
    have next := emission.nextSeq
    have worldNext := sound.nextSeq
    refine ⟨earlier.trans (Nat.le_of_lt (Nat.lt_of_succ_le (Nat.le_of_eq next.symm))),
      fun chunk retained pre => ?_⟩
    rcases mem_append.mp (emission.retained.subset retained) with old | new
    · exact kept chunk old pre
    · rw [eq_output_of_chunk new] at seq
      have late : chunk.seq = world.emitted.length + 1 := Option.some.inj seq
      omega
  · rw [emitted_emit, length_append]
    exact bound.trans (Nat.le_add_right _ _)
  · intro exitSeq code denied mem early
    rw [emitted_emit, mem_append, mem_singleton] at mem
    rcases mem with pre | rfl
    · exact collected.exited exitSeq code denied pre early
    · have late : exitSeq = world.emitted.length + 1 := Option.some.inj seq
      omega
  · intro _ closeSeq mem
    rw [emitted_emit, mem_append, mem_singleton] at mem
    rcases mem with pre | rfl
    · exact collected.running notStopped closeSeq pre
    · have late : closeSeq = world.emitted.length + 1 := Option.some.inj seq
      omega
  · exact fun stage => absurd stage notStopped
  · exact collected.notFailed

/-- Moving on to the event that is next in the sequence, when it is not the close. -/
theorem Collected.advance (event : ExecProcessEvent) (mem : event ∈ world.emitted)
    (next : event.seq = some (task.lastSeq + 1)) (notClose : ∀ seq, event ≠ .closed seq)
    (after : OutputTask) (lastSeq : after.lastSeq = task.lastSeq + 1)
    (receiving : after.stage = .receiving) (wasReceiving : task.stage = .receiving)
    (records : ∀ seq exitCode denied, event = .exited seq exitCode denied →
      after.state.hasExited = true ∧ after.state.exitCode = some exitCode)
    (keeps : (∀ seq exitCode denied, event ≠ .exited seq exitCode denied) →
      after.state = task.state) :
    Collected (history ++ observed event.chunk?.toList) { world with task := some after }
      after := by
  have chunkSeq : ∀ chunk ∈ event.chunk?.toList, chunk.seq = task.lastSeq + 1 := by
    intro chunk isChunk
    rw [eq_output_of_chunk isChunk] at next
    exact Option.some.inj next
  constructor
  · rw [appendedChunks_append, appendedChunks_observed, pairwise_append]
    refine ⟨collected.ordered, ?_, fun old oldAppended new isNew => ?_⟩
    · cases event.chunk? with
      | none => exact List.Pairwise.nil
      | some chunk => exact pairwise_singleton _ _
    · have early := (collected.passed old oldAppended).2
      have late := chunkSeq new isNew
      omega
  · intro chunk added
    rw [appendedChunks_append, appendedChunks_observed, mem_append] at added
    rw [lastSeq]
    rcases added with old | new
    · obtain ⟨inEmitted, early⟩ := collected.passed chunk old
      exact ⟨inEmitted, early.trans (Nat.le_succ _)⟩
    · rw [eq_output_of_chunk new] at mem
      exact ⟨mem_emittedChunks.mpr mem, Nat.le_of_eq (chunkSeq chunk new)⟩
  · intro chunk inEmitted early
    rw [lastSeq] at early
    rw [appendedChunks_append, appendedChunks_observed, mem_append]
    rcases Nat.le_or_eq_of_le_succ early with pre | isNext
    · exact (collected.covered chunk inEmitted pre).imp Or.inl (evictedAtRead_append _)
    · have same := sound.eq_of_seq event (.output chunk) mem
        (mem_emittedChunks.mp inEmitted) (next.trans (congrArg some isNext.symm))
      rw [same]
      exact Or.inl (.inr mem_cons_self)
  · intro process seen
    rcases mem_append.mp seen with pre | new
    · exact collected.reads process pre
    · exact absurd new (read_mem_observed process _)
  · obtain ⟨seq, same, _, isIn⟩ := sound.seq_of_mem event mem
    rw [lastSeq, Option.some.inj (next.symm.trans same)]
    exact isIn
  · intro seq exitCode denied exitMem early
    by_cases isExit : ∃ otherSeq otherCode otherDenied, event = .exited otherSeq otherCode
      otherDenied
    · obtain ⟨otherSeq, otherCode, otherDenied, rfl⟩ := isExit
      have sameCode := (sound.exited _ _ _ mem).symm.trans (sound.exited _ _ _ exitMem)
      rw [← Option.some.inj sameCode]
      exact records _ _ _ rfl
    · have noExit : ∀ seq exitCode denied, event ≠ .exited seq exitCode denied :=
        fun seq exitCode denied same => isExit ⟨seq, exitCode, denied, same⟩
      rw [keeps noExit]
      rw [lastSeq] at early
      rcases Nat.le_or_eq_of_le_succ early with pre | isNext
      · exact collected.exited seq exitCode denied exitMem pre
      · exact absurd (sound.eq_of_seq event _ mem exitMem
          (next.trans (congrArg some isNext.symm))) (noExit seq exitCode denied)
  · intro _ seq closeMem
    have late := collected.running (by rw [wasReceiving]; decide) seq closeMem
    have other : seq ≠ task.lastSeq + 1 := by
      intro isNext
      exact notClose seq (sound.eq_of_seq event _ mem closeMem
        (next.trans (congrArg some isNext.symm)))
    rw [lastSeq]
    omega
  · intro stage
    rw [receiving] at stage
    cases stage
  · rw [receiving]
    decide

omit sound collected in
/-- A task that goes on without passing an event. -/
theorem Collected.keep (collected : Collected history world task) (after : OutputTask)
    (lastSeq : after.lastSeq = task.lastSeq) (state : after.state = task.state)
    (wasReceiving : task.stage = .receiving)
    (goesOn : after.stage = .receiving ∨ after.stage = .reading) :
    Collected (history ++ observed []) { world with task := some after } after := by
  rw [show observed [] = [] from rfl, append_nil]
  constructor
  · exact collected.ordered
  · rw [lastSeq]
    exact collected.passed
  · rw [lastSeq]
    exact collected.covered
  · exact collected.reads
  · rw [lastSeq]
    exact collected.bound
  · rw [lastSeq, state]
    exact collected.exited
  · rw [lastSeq]
    exact fun _ => collected.running (by rw [wasReceiving]; decide)
  · intro stage
    rcases goesOn with receiving | reading
    · cases receiving.symm.trans stage
    · cases reading.symm.trans stage
  · intro stage
    rcases goesOn with receiving | reading
    · cases receiving.symm.trans stage
    · cases reading.symm.trans stage

theorem Collected.close (mem : .closed (task.lastSeq + 1) ∈ world.emitted) :
    Collected (history ++ observed []) { world with task := some { task with stage := .closed } }
      { task with stage := .closed } := by
  rw [show observed [] = [] from rfl, append_nil]
  obtain ⟨isClosed, last⟩ := sound.closeEmitted _ mem
  exact { collected with
      running := fun stage => absurd rfl stage
      stopped := fun _ => ⟨isClosed, Nat.le_of_eq last.symm⟩
      notFailed := fun stage => by cases stage }

/-- A received event is passed when it is next, and skipped when it was passed before. -/
theorem Collected.handleEvent (event : ExecProcessEvent) (mem : event ∈ world.emitted)
    (receiving : task.stage = .receiving) (direct : task.needsRead event = false) :
    Collected (history ++ observed (task.handleEvent event).2)
    { world with task := some (task.handleEvent event).1 } (task.handleEvent event).1 := by
  obtain ⟨seq, isSeq, _, _⟩ := sound.seq_of_mem event mem
  have noGap : seq ≤ task.lastSeq + 1 := by
    have early := (Bool.or_eq_false_iff.mp direct).1
    rw [isSeq, Option.any_some, decide_eq_false_iff_not, Nat.not_lt] at early
    exact early
  cases event with
  | output chunk =>
    cases isSeq
    simp only [OutputTask.handleEvent]
    split
    · exact collected.keep task rfl rfl receiving (.inl receiving)
    next fresh =>
      have next : chunk.seq = task.lastSeq + 1 := by omega
      exact collected.advance sound (.output chunk) mem (congrArg some next)
        (fun _ same => by cases same) { task with lastSeq := chunk.seq } next receiving
        receiving (fun _ _ _ same => by cases same) (fun _ => rfl)
  | exited exitSeq code denied =>
    have same : exitSeq = seq := Option.some.inj isSeq
    subst same
    simp only [OutputTask.handleEvent]
    split
    · exact collected.keep task rfl rfl receiving (.inl receiving)
    next fresh =>
      have next : exitSeq = task.lastSeq + 1 := by omega
      refine collected.advance sound (.exited exitSeq code denied) mem
        (congrArg some next) (fun _ same => by cases same) _ next receiving receiving ?_ ?_
      · intro _ _ _ same
        cases same
        exact ⟨rfl, rfl⟩
      · intro noExit
        exact absurd rfl (noExit _ _ _)
  | closed closeSeq =>
    have same : closeSeq = seq := Option.some.inj isSeq
    subst same
    simp only [OutputTask.handleEvent]
    split
    · exact collected.keep task rfl rfl receiving (.inl receiving)
    next fresh =>
      have next : closeSeq = task.lastSeq + 1 := by omega
      rw [next] at mem
      exact collected.close sound mem
  | failed msg => cases isSeq

theorem Collected.receive
    (got : Received) (receiving : task.stage = .receiving) (alive : got ≠ .closed)
    (mem : ∀ event, got = .event event → event ∈ world.emitted) :
    Collected (history ++ observed (task.handleReceived got).2)
      { world with task := some (task.handleReceived got).1 } (task.handleReceived got).1 := by
  cases got with
  | event event =>
    simp only [handleReceived]
    split
    · exact collected.keep _ rfl rfl receiving (.inr rfl)
    next direct =>
      exact collected.handleEvent sound event (mem event rfl) receiving (by simpa using direct)
  | lagged => exact collected.keep _ rfl rfl receiving (.inr rfl)
  | closed => exact absurd rfl alive

omit sound collected in
theorem handleRead_execRead : task.handleRead (.ok (process.execRead task.lastSeq none)) =
      ({ task with
          lastSeq := max task.lastSeq (process.nextSeq - 1)
          stage := if process.closed then .closed else .receiving
          state := stateAfterRead task.state (process.execRead task.lastSeq none) },
        process.output.filter fun chunk => decide (task.lastSeq < chunk.seq)) := by
  rw [RunningProcess.execRead_unlimited]
  simp [handleRead]

theorem Collected.read : Collected (history ++ (.read world.process ::
        observed (task.handleRead (.ok (world.process.execRead task.lastSeq none))).2)) { world with
        task := some (task.handleRead (.ok (world.process.execRead task.lastSeq none))).1 }
      (task.handleRead (.ok (world.process.execRead task.lastSeq none))).1 := by
  rw [handleRead_execRead]
  have lastSeq : max task.lastSeq (world.process.nextSeq - 1) = world.emitted.length := by
    rw [sound.nextSeq, Nat.add_sub_cancel]
    exact Nat.max_eq_right collected.bound
  have retained := sound.retained
  have early : ∀ event ∈ world.emitted, ∀ seq, event.seq = some seq →
      seq ≤ world.emitted.length := by
    intro event mem seq isSeq
    obtain ⟨found, same, _, isIn⟩ := sound.seq_of_mem event mem
    rw [Option.some.inj (isSeq.symm.trans same)]
    exact isIn
  constructor
  · rw [appendedChunks_append, appendedChunks_read, pairwise_append]
    refine ⟨collected.ordered, ?_, fun old oldAppended new isNew => ?_⟩
    · exact (sound.chunks_ascending.sublist retained.sublist).filter _
    · have passed := (collected.passed old oldAppended).2
      have late := of_decide_eq_true (mem_filter.mp isNew).2
      omega
  · intro chunk added
    rw [appendedChunks_append, appendedChunks_read, mem_append] at added
    have inEmitted : chunk ∈ world.emittedChunks :=
      added.elim (fun old => (collected.passed chunk old).1)
        (fun new => retained.subset (mem_filter.mp new).1)
    refine ⟨inEmitted, ?_⟩
    rw [lastSeq]
    exact early _ (mem_emittedChunks.mp inEmitted) _ rfl
  · intro chunk inEmitted _
    rw [appendedChunks_append, appendedChunks_read, mem_append]
    by_cases pre : chunk.seq ≤ task.lastSeq
    · exact (collected.covered chunk inEmitted pre).imp Or.inl (evictedAtRead_append _)
    · by_cases kept : chunk ∈ world.process.output
      · exact Or.inl (.inr (mem_filter.mpr ⟨kept, by simpa using pre⟩))
      · refine Or.inr ⟨world.process, mem_append_right _ mem_cons_self, ?_, kept⟩
        rw [sound.nextSeq]
        exact Nat.lt_succ_of_le (early _ (mem_emittedChunks.mp inEmitted) _ rfl)
  · intro process seen
    rcases mem_append.mp seen with pre | new
    · exact collected.reads process pre
    · rcases mem_cons.mp new with same | gone
      · cases same
        exact ⟨Nat.le_refl _, fun chunk kept _ => kept⟩
      · exact absurd gone (read_mem_observed process _)
  · exact Nat.le_of_eq lastSeq
  · intro seq code denied mem _
    have isExited := sound.exited seq code denied mem
    simp [stateAfterRead, RunningProcess.execRead_unlimited, isExited, ProcessState.exited]
  · intro stage seq mem
    obtain ⟨isClosed, _⟩ := sound.closeEmitted seq mem
    rw [isClosed] at stage
    exact absurd rfl stage
  · intro stage
    cases isClosed : world.process.closed with
    | true => exact ⟨rfl, Nat.le_succ_of_le (Nat.le_of_eq lastSeq.symm)⟩
    | false =>
      rw [isClosed] at stage
      cases stage
  · intro stage
    cases isClosed : world.process.closed with
    | true =>
      rw [isClosed] at stage
      cases stage
    | false =>
      rw [isClosed] at stage
      cases stage

end

/-- Nothing is observed before the task starts. -/
structure Followed (history : List OutputObservation) (world : OutputWorld) : Prop where
  faithful : Faithful world
  before : world.task = none → history = []
  collected : ∀ task, world.task = some task → Collected history world task

theorem followed_initial (openStreams eventCapacity byteCapacity liveCapacity : Nat) :
    Followed [] (initial openStreams eventCapacity byteCapacity liveCapacity) := by
  refine ⟨⟨?_, rfl, suffix_rfl, ?_, ?_, ?_, ?_, ?_, ?_⟩, fun _ => rfl, ?_⟩
  · intro index event isAt
    cases isAt
  · intro seq code denied gone
    cases gone
  · intro code gone
    cases gone
  · intro seq gone
    cases gone
  · intro isClosed
    cases isClosed
  · intro event gone
    cases gone
  · intro task gone
    cases gone
  · intro task gone
    cases gone

/-- The collected chunks do not depend on which events have reached the log. -/
theorem Collected.congr {after : OutputWorld} (collected : Collected history world task)
    (emitted : after.emitted = world.emitted) (output : after.process.output = world.process.output)
    (nextSeq : after.process.nextSeq = world.process.nextSeq)
    (closed : after.process.closed = world.process.closed) : Collected history after task := by
  have chunks : after.emittedChunks = world.emittedChunks :=
    congrArg (List.filterMap ExecProcessEvent.chunk?) emitted
  constructor
  · exact collected.ordered
  · rw [chunks]
    exact collected.passed
  · rw [chunks]
    exact collected.covered
  · rw [output, nextSeq]
    exact collected.reads
  · rw [emitted]
    exact collected.bound
  · rw [emitted]
    exact collected.exited
  · rw [emitted]
    exact collected.running
  · rw [emitted, closed]
    exact collected.stopped
  · exact collected.notFailed

theorem Followed.step (followed : Followed history world) {after : OutputWorld}
    {obs : List OutputObservation} (effect : StepEffect world after obs) :
    Followed (history ++ obs) after := by
  have faithful := followed.faithful
  refine ⟨faithful.step effect, ?_, ?_⟩
  · intro gone
    cases effect with
    | subscribes _ => cases gone
    | receives task received events alive receiving got => cases gone
    | reads task alive reading => cases gone
    | _ => rw [append_nil]; exact followed.before gone
  · intro task alive
    cases effect with
    | emits process event emission =>
      rw [append_nil]
      exact (followed.collected task alive).emit faithful emission
    | finishesStream =>
      rw [append_nil]
      exact (followed.collected task alive).congr rfl rfl rfl rfl
    | publishes event rest unsent =>
      rw [append_nil]
      exact (followed.collected task alive).congr (emitted_publish event rest unsent) rfl rfl rfl
    | subscribes gone =>
      cases alive
      rw [followed.before gone]
      exact collected_start faithful
    | receives before received events wasRunning receiving got =>
      cases alive
      have collected := followed.collected before wasRunning
      have moved : Collected history world { before with events := events } :=
        { collected with }
      refine moved.receive faithful received receiving ?_ ?_
      · rintro rfl
        exact recv_ne_closed _ _ _ got
      · rintro event rfl
        exact mem_append_left _ (mem_sent_of_recv faithful wasRunning got)
    | reads before wasRunning reading =>
      cases alive
      exact (followed.collected before wasRunning).read faithful

theorem run_followed {retention : OutputRetention}
    {openStreams eventCapacity byteCapacity liveCapacity : Nat} {actions : List OutputAction}
    {world : OutputWorld} {obs : List OutputObservation} (run : (outputMachine retention).run
    (initial openStreams eventCapacity byteCapacity liveCapacity) actions =
    some (world, obs)) : Followed obs world := by
  have start := followed_initial openStreams eventCapacity byteCapacity liveCapacity
  exact (outputMachine retention).run_history (fun _ => True) Followed
    (fun history state act after outputs _ followed ran =>
    followed.step (step_effect retention after act outputs followed.faithful ran))
    actions (fun _ _ => trivial) _ world [] obs start run

end OutputWorld

open OutputWorld

/-- Along every run the appended chunks are emitted chunks in sequence order, each one once.  A
chunk that the task has passed was appended unless the server had evicted it at a read.  When the
task stops at the close it has appended all that the server retains and recorded the exit. -/
theorem output_collected_once (retention : OutputRetention)
    (openStreams eventCapacity byteCapacity liveCapacity : Nat) (actions : List OutputAction)
    (world : OutputWorld) (observations : List OutputObservation) (task : OutputTask)
    (run : (outputMachine retention).run
      (initial openStreams eventCapacity byteCapacity liveCapacity) actions =
        some (world, observations))
    (started : world.task = some task) :
    ((appendedChunks observations).Pairwise fun first second => first.seq < second.seq) ∧
    (∀ chunk ∈ appendedChunks observations, chunk ∈ world.emittedChunks) ∧
    (∀ chunk ∈ world.emittedChunks, chunk.seq ≤ task.lastSeq →
      chunk ∈ appendedChunks observations ∨ EvictedAtRead observations chunk) ∧
    (task.stage = .closed →
      (∀ chunk ∈ world.emittedChunks,
        chunk ∈ appendedChunks observations ∨ EvictedAtRead observations chunk) ∧
      (∀ chunk ∈ world.process.output, chunk ∈ appendedChunks observations) ∧
      task.state.hasExited = true ∧
      ∃ exitCode, world.process.exitCode = some exitCode ∧
        task.state.exitCode = some exitCode) := by
  have followed := run_followed run
  have faithful := followed.faithful
  have collected := followed.collected task started
  refine ⟨collected.ordered, fun chunk appended => (collected.passed chunk appended).1,
    collected.covered, fun stage => ?_⟩
  obtain ⟨isClosed, last⟩ := collected.stopped stage
  obtain ⟨_, isExited, closeMem⟩ := faithful.closed isClosed
  -- The close has the last number, so every other event comes before it.
  have passed : ∀ event ∈ world.emitted, (∀ seq, event ≠ .closed seq) →
      ∀ seq, event.seq = some seq → seq ≤ task.lastSeq := by
    intro event mem notClose seq isSeq
    obtain ⟨found, same, _, inside⟩ := faithful.seq_of_mem event mem
    cases Option.some.inj (isSeq.symm.trans same)
    have notLast : seq ≠ world.emitted.length := by
      intro isLast
      exact notClose _ (faithful.eq_of_seq event _ mem closeMem
        (isSeq.trans (congrArg some isLast)))
    omega
  have complete : ∀ chunk ∈ world.emittedChunks,
      chunk ∈ appendedChunks observations ∨ EvictedAtRead observations chunk := by
    intro chunk inEmitted
    exact collected.covered chunk inEmitted (passed _ (mem_emittedChunks.mp inEmitted)
      (fun _ same => by cases same) _ rfl)
  refine ⟨complete, fun chunk retained => ?_, ?_⟩
  · rcases complete chunk (faithful.retained.subset retained) with appended | evicted
    · exact appended
    · obtain ⟨process, seen, before, absent⟩ := evicted
      exact absurd ((collected.reads process seen).2 chunk retained before) absent
  · obtain ⟨exitCode, exited⟩ := Option.isSome_iff_exists.mp isExited
    obtain ⟨seq, denied, mem⟩ := faithful.exitEmitted exitCode exited
    obtain ⟨hasExited, recorded⟩ := collected.exited seq exitCode denied mem
      (passed _ mem (fun _ same => by cases same) _ rfl)
    exact ⟨hasExited, exitCode, exited, recorded⟩

/-- A task that lags behind two chunks, of which the server retains one. -/
def laggedRun : List OutputAction :=
  [.subscribe, .streamOutput [1], .publish, .streamOutput [2], .publish, .receive, .read,
    .finishOutputStream, .watchExit 0 false, .receive, .publish, .receive, .maybeEmitClosed,
    .publish, .receive]

theorem laggedRun_collected :
    ∃ world observations task,
      (outputMachine ⟨100, 1⟩).run (initial 1 1 100 1) laggedRun = some (world, observations) ∧
        world.task = some task ∧ task.stage = .closed ∧
        (∀ chunk ∈ world.process.output, chunk ∈ appendedChunks observations) ∧
        task.state.hasExited = true := by
  have closes : ((outputMachine ⟨100, 1⟩).run (initial 1 1 100 1) laggedRun).map
      (fun result => result.1.task.map fun task => task.stage) = some (some .closed) := by
    decide +kernel
  obtain ⟨⟨world, observations⟩, ran, atEnd⟩ := Option.map_eq_some_iff.mp closes
  obtain ⟨task, isTask, stage⟩ := Option.map_eq_some_iff.mp atEnd
  obtain ⟨_, _, _, stops⟩ :=
    output_collected_once ⟨100, 1⟩ 1 1 100 1 laggedRun world observations task ran isTask
  obtain ⟨_, retained, hasExited, _⟩ := stops stage
  exact ⟨world, observations, task, ran, isTask, stage, retained, hasExited⟩

end CodexFormal.UnifiedExec
