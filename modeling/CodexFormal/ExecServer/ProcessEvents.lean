import CodexFormal.Patch.Text

/-!
# Process events

A process numbers its output chunks, its exit and its close in one sequence.
The server retains a bounded end of the output for reads, and every event goes
to a log with a bounded replay history and a bounded live channel.
-/

set_option autoImplicit false

namespace CodexFormal.ExecServer

open List

open Patch (Text)

structure ProcessOutputChunk where
  seq : Nat
  chunk : List UInt8
deriving Repr, DecidableEq

inductive ExecProcessEvent where
  | output (chunk : ProcessOutputChunk)
  | exited (seq : Nat) (exitCode : Int) (sandboxDenied : Option Bool)
  | closed (seq : Nat)
  | failed (message : Text)
deriving Repr, DecidableEq

namespace ExecProcessEvent

/-- Failures are synthesized by the client and have no number. -/
def seq : ExecProcessEvent → Option Nat
  | .output chunk => some chunk.seq
  | .exited seq _ _ => some seq
  | .closed seq => some seq
  | .failed _ => none

def retainedLen : ExecProcessEvent → Nat
  | .output chunk => chunk.chunk.length
  | .failed message => (message.map Char.utf8Size).sum
  | .exited _ _ _ | .closed _ => 0

def chunk? : ExecProcessEvent → Option ProcessOutputChunk
  | .output chunk => some chunk
  | _ => none

end ExecProcessEvent

section Eviction

variable {α : Type} (size : α → Nat) (maxCount maxBytes : Nat)

/-- Drops the oldest items until both limits hold; the bytes are counted along. -/
def evictOldest : List α → Nat → List α × Nat
  | [], retainedBytes => ([], retainedBytes)
  | oldest :: rest, retainedBytes =>
    if maxCount < (oldest :: rest).length ∨ maxBytes < retainedBytes then
      evictOldest rest (retainedBytes - size oldest)
    else (oldest :: rest, retainedBytes)

theorem evictOldest_suffix (items : List α) (retainedBytes : Nat) :
    (evictOldest size maxCount maxBytes items retainedBytes).1 <:+ items := by
  induction items generalizing retainedBytes with
  | nil => exact suffix_rfl
  | cons oldest rest ih =>
    unfold evictOldest
    split
    · exact (ih _).trans (suffix_cons oldest rest)
    · exact suffix_rfl

end Eviction

/-- `sent` is all that went to the live channel; a receiver reads it from its own position and
loses what is more than `liveCapacity` events old. -/
structure ExecProcessEventLog where
  history : List ExecProcessEvent
  retainedBytes : Nat
  sent : List ExecProcessEvent
  eventCapacity : Nat
  byteCapacity : Nat
  liveCapacity : Nat
deriving Repr, DecidableEq

structure ExecProcessEventReceiver where
  replay : List ExecProcessEvent
  position : Nat
deriving Repr, DecidableEq

inductive Received where
  | event (event : ExecProcessEvent)
  | lagged
  | closed
deriving Repr, DecidableEq

namespace ExecProcessEventLog

def new (eventCapacity byteCapacity liveCapacity : Nat) : ExecProcessEventLog :=
  { history := []
    retainedBytes := 0
    sent := []
    eventCapacity := eventCapacity
    byteCapacity := byteCapacity
    liveCapacity := liveCapacity }

variable (log : ExecProcessEventLog)

def publish (event : ExecProcessEvent) : ExecProcessEventLog :=
  let kept := evictOldest ExecProcessEvent.retainedLen log.eventCapacity log.byteCapacity
    (log.history ++ [event]) (log.retainedBytes + event.retainedLen)
  { log with history := kept.1, retainedBytes := kept.2, sent := log.sent ++ [event] }

def subscribe : ExecProcessEventReceiver :=
  { replay := log.history, position := log.sent.length }

/-- Nothing is returned while a receiver that is up to date waits. -/
def recv (receiver : ExecProcessEventReceiver) : Option (Received × ExecProcessEventReceiver) :=
  match receiver.replay with
  | event :: rest => some (.event event, { receiver with replay := rest })
  | [] =>
    if log.liveCapacity < log.sent.length - receiver.position then
      some (.lagged, { receiver with position := log.sent.length - log.liveCapacity })
    else
      log.sent[receiver.position]?.map fun event =>
        (.event event, { receiver with position := receiver.position + 1 })

theorem mem_history_publish (event other : ExecProcessEvent)
    (mem : other ∈ (log.publish event).history) : other ∈ log.history ∨ other = event := by
  have kept := (evictOldest_suffix _ _ _ _ _).subset mem
  exact (mem_append.mp kept).imp_right mem_singleton.mp

end ExecProcessEventLog

structure OutputRetention where
  bytes : Nat
  chunks : Nat
deriving Repr, DecidableEq

structure RunningProcess where
  output : List ProcessOutputChunk
  retainedBytes : Nat
  nextSeq : Nat
  exitCode : Option Int
  openStreams : Nat
  closed : Bool
  sandboxDenied : Bool
deriving Repr, DecidableEq

structure ReadResponse where
  chunks : List ProcessOutputChunk
  nextSeq : Nat
  exited : Bool
  exitCode : Option Int
  closed : Bool
  failure : Option Text
  sandboxDenied : Bool
deriving Repr, DecidableEq

namespace RunningProcess

def start (openStreams : Nat) : RunningProcess :=
  { output := []
    retainedBytes := 0
    nextSeq := 1
    exitCode := none
    openStreams := openStreams
    closed := false
    sandboxDenied := false }

def streamOutput (retention : OutputRetention) (process : RunningProcess) (chunk : List UInt8) :
    RunningProcess × ExecProcessEvent :=
  let output := { seq := process.nextSeq, chunk := chunk }
  let kept := evictOldest (fun retained => retained.chunk.length) retention.chunks retention.bytes
    (process.output ++ [output]) (process.retainedBytes + chunk.length)
  ({ process with output := kept.1, retainedBytes := kept.2, nextSeq := process.nextSeq + 1 },
    .output output)

variable (process : RunningProcess)

def finishOutputStream : RunningProcess :=
  { process with openStreams := process.openStreams - 1 }

/-- Whether the sandbox denied something is classified from the retained output. -/
def watchExit (exitCode : Int) (sandboxDenied : Bool) : RunningProcess × ExecProcessEvent :=
  ({ process with
      nextSeq := process.nextSeq + 1
      exitCode := some exitCode
      sandboxDenied := sandboxDenied },
    .exited process.nextSeq exitCode (some sandboxDenied))

def maybeEmitClosed : Option (RunningProcess × ExecProcessEvent) :=
  if process.closed = true ∨ process.openStreams ≠ 0 ∨ process.exitCode = none then none
  else some ({ process with closed := true, nextSeq := process.nextSeq + 1 },
    .closed process.nextSeq)

/-- Reads stop after the chunk that reaches the limit and before one that would pass it. -/
def readChunks (maxBytes : Option Nat) (taken totalBytes : Nat) :
    List ProcessOutputChunk → List ProcessOutputChunk
  | [] => []
  | retained :: rest =>
    let total := totalBytes + retained.chunk.length
    if taken ≠ 0 ∧ maxBytes.any (fun limit => decide (limit < total)) then []
    else if maxBytes.any (fun limit => decide (limit ≤ total)) then [retained]
    else retained :: readChunks maxBytes (taken + 1) total rest

def execRead (afterSeq : Nat) (maxBytes : Option Nat) : ReadResponse :=
  let chunks := readChunks maxBytes 0 0
    (process.output.filter fun retained => decide (afterSeq < retained.seq))
  { chunks := chunks
    nextSeq :=
      match maxBytes, chunks.getLast? with
      | some _, some last => last.seq + 1
      | _, _ => process.nextSeq
    exited := process.exitCode.isSome
    exitCode := process.exitCode
    closed := process.closed
    failure := none
    sandboxDenied := process.sandboxDenied }

theorem readChunks_unlimited (taken totalBytes : Nat) (retained : List ProcessOutputChunk) :
    readChunks none taken totalBytes retained = retained := by
  induction retained generalizing taken totalBytes with
  | nil => rfl
  | cons chunk rest ih => simp [readChunks, ih]

theorem execRead_unlimited (afterSeq : Nat) : process.execRead afterSeq none =
      { chunks := process.output.filter fun retained => decide (afterSeq < retained.seq)
        nextSeq := process.nextSeq
        exited := process.exitCode.isSome
        exitCode := process.exitCode
        closed := process.closed
        failure := none
        sandboxDenied := process.sandboxDenied } := by
  simp [execRead, readChunks_unlimited]

end RunningProcess

section Longest

variable {α : Type} (size : α → Nat) (maxCount maxBytes : Nat)

/-- Of the ends of the items, the longest one within both limits. -/
structure LongestEnd (items kept : List α) : Prop where
  ends : kept <:+ items
  count : kept.length ≤ maxCount
  bytes : (kept.map size).sum ≤ maxBytes
  longest : ∀ other, other <:+ items → other.length ≤ maxCount →
    (other.map size).sum ≤ maxBytes → other <:+ kept

theorem longestEnd_evictOldest (items : List α) :
    ∃ kept, evictOldest size maxCount maxBytes items (items.map size).sum =
      (kept, (kept.map size).sum) ∧ LongestEnd size maxCount maxBytes items kept := by
  induction items with
  | nil => exact ⟨[], rfl, suffix_rfl, Nat.zero_le _, Nat.zero_le _, fun _ ends _ _ => ends⟩
  | cons oldest rest ih =>
    unfold evictOldest
    split
    next full =>
      obtain ⟨kept, same, within⟩ := ih
      refine ⟨kept, ?_, within.ends.trans (suffix_cons oldest rest), within.count, within.bytes,
        fun other ends count bytes => ?_⟩
      · rw [map_cons, sum_cons, Nat.add_sub_cancel_left, same]
      · rcases suffix_cons_iff.mp ends with rfl | ends
        · omega
        · exact within.longest other ends count bytes
    next => exact ⟨_, rfl, suffix_rfl, by omega, by omega, fun _ ends _ _ => ends⟩

variable {size maxCount maxBytes} in
/-- Evicting after each item keeps what evicting once at the end would keep. -/
theorem LongestEnd.concat {items kept left : List α} {item : α}
    (before : LongestEnd size maxCount maxBytes items kept)
    (after : LongestEnd size maxCount maxBytes (kept ++ [item]) left) :
    LongestEnd size maxCount maxBytes (items ++ [item]) left := by
  refine ⟨after.ends.trans (suffix_append_self_iff.mpr before.ends), after.count, after.bytes,
    fun other ends count bytes => after.longest other ?_ count bytes⟩
  rcases suffix_concat_iff.mp ends with rfl | ⟨init, rfl, inner⟩
  · exact nil_suffix
  · simp only [length_append, map_append, sum_append] at count bytes
    exact suffix_append_self_iff.mpr (before.longest init inner (by omega) (by omega))

end Longest

open ExecProcessEventLog ExecProcessEvent

theorem history_longestEnd (eventCapacity byteCapacity liveCapacity : Nat)
    (events : List ExecProcessEvent) : ∃ history,
    events.foldl publish (new eventCapacity byteCapacity liveCapacity) =
      ⟨history, (history.map retainedLen).sum, events, eventCapacity, byteCapacity,
        liveCapacity⟩ ∧
    LongestEnd retainedLen eventCapacity byteCapacity events history := by
  induction events using reverseRecOn with
  | nil => exact ⟨[], rfl, suffix_rfl, Nat.zero_le _, Nat.zero_le _, fun _ ends _ _ => ends⟩
  | append_singleton events event ih =>
    obtain ⟨kept, same, before⟩ := ih
    obtain ⟨history, out, after⟩ :=
      longestEnd_evictOldest retainedLen eventCapacity byteCapacity (kept ++ [event])
    refine ⟨history, ?_, before.concat after⟩
    rw [map_append, sum_append, map_singleton, sum_singleton] at out
    rw [foldl_append, same, foldl_cons, foldl_nil, publish, out]

end CodexFormal.ExecServer
