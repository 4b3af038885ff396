import CodexFormal.ExecServer.ProcessEvents
import CodexFormal.Foundation.FiniteMap
import CodexFormal.Foundation.JsonText
import CodexFormal.Foundation.Machine

/-!
# Ordered session events

The client of an exec server publishes the events of a process in their order.
Events that arrive early are kept aside, and after a reconnect the missing ones
are recovered from a read, which has the output but not the number of the exit.
-/

set_option autoImplicit false

namespace CodexFormal.ExecServer

open Foundation
open Patch (Text)

def maxPendingProcessEvents : Nat := 256
def maxPendingProcessEventBytes : Nat := 1024 * 1024
def processEventChannelCapacity : Nat := 256
def processEventRetainedBytes : Nat := 1024 * 1024

structure OrderedSessionEvents where
  lastPublishedSeq : Nat
  exitPublished : Bool
  closedPublished : Bool
  pending : FiniteMap Nat ExecProcessEvent
  pendingBytes : Nat
  failure : Option Text

structure Session where
  ordered : OrderedSessionEvents
  events : ExecProcessEventLog

namespace Session

def new : Session :=
  { ordered :=
      { lastPublishedSeq := 0
        exitPublished := false
        closedPublished := false
        pending := ∅
        pendingBytes := 0
        failure := none }
    events := ExecProcessEventLog.new processEventChannelCapacity processEventRetainedBytes
      processEventChannelCapacity }

end Session

namespace OrderedSessionEvents

def insertPending (ordered : OrderedSessionEvents) (event : ExecProcessEvent) :
    Except Text OrderedSessionEvents :=
  match event.seq with
  | none => .error "cannot reorder an unsequenced process event".toList
  | some seq =>
    if (ordered.pending.lookup seq).isSome then .ok ordered
    else
      -- The next expected event is published at once by every caller.
      let closesGap := decide (seq = ordered.lastPublishedSeq + 1)
      let pendingBytes := ordered.pendingBytes + event.retainedLen
      if closesGap = false ∧ maxPendingProcessEvents ≤ FiniteMap.size ordered.pending then
        .error ("process event reorder buffer exceeds ".toList ++
          Json.nat maxPendingProcessEvents ++ " entries".toList)
      else if maxPendingProcessEventBytes < event.retainedLen then
        .error ("process event exceeds ".toList ++
          Json.nat maxPendingProcessEventBytes ++ " bytes".toList)
      else if closesGap = false ∧ maxPendingProcessEventBytes < pendingBytes then
        .error ("process event reorder buffer exceeds ".toList ++
          Json.nat maxPendingProcessEventBytes ++ " bytes".toList)
      else
        .ok { ordered with
          pending := ordered.pending.insert seq event
          pendingBytes := pendingBytes }

end OrderedSessionEvents

def ExecProcessEvent.isExited : ExecProcessEvent → Bool
  | .exited _ _ _ => true
  | _ => false

def ExecProcessEvent.isClosed : ExecProcessEvent → Bool
  | .closed _ => true
  | _ => false

namespace Session

variable (session : Session)

def publishNext (event : ExecProcessEvent) : Session :=
  let ordered := session.ordered
  { ordered := { ordered with
      pending := ordered.pending.erase (ordered.lastPublishedSeq + 1)
      pendingBytes := ordered.pendingBytes - event.retainedLen
      lastPublishedSeq := ordered.lastPublishedSeq + 1
      exitPublished := ordered.exitPublished || event.isExited
      closedPublished := ordered.closedPublished || event.isClosed }
    events := session.events.publish event }

/-- Each round takes one pending event, so as many rounds as there are events are enough. -/
def publishRounds : Nat → Session → Session × Bool
  | 0, session => (session, false)
  | rounds + 1, session =>
    match session.ordered.pending.lookup (session.ordered.lastPublishedSeq + 1) with
    | none => (session, false)
    | some event =>
      let rest := publishRounds rounds (session.publishNext event)
      (rest.1, event.isClosed || rest.2)

/-- Publishes what has become next; whether the close was among it. -/
def publishReady : Session × Bool :=
  publishRounds (FiniteMap.size session.ordered.pending) session

def publishOrderedEvent (event : ExecProcessEvent) : Except Text Bool × Session :=
  match event.seq with
  | none => (.ok false, { session with events := session.events.publish event })
  | some seq =>
    if session.ordered.failure.isSome ∨ session.ordered.closedPublished = true ∨
        seq ≤ session.ordered.lastPublishedSeq then
      (.ok false, session)
    else
      match session.ordered.insertPending event with
      | .error message => (.error message, session)
      | .ok ordered =>
        let published := publishReady { session with ordered := ordered }
        (.ok published.2, published.1)

def setFailure (message : Text) : Session :=
  if session.ordered.failure.isSome ∨ session.ordered.closedPublished = true then session
  else
    { ordered := { session.ordered with
        failure := some message
        pending := ∅
        pendingBytes := 0 }
      events := session.events.publish (.failed message) }

end Session

/-- What the loop over the recovered chunks carries. -/
structure Recovery where
  session : Session
  exitKnown : Bool
  publishedClosed : Bool

/-- An error leaves the session as far as it had come. -/
abbrev Recovering (α : Type) := Except (Text × Session) α

namespace Recovery

def insertPending (recovery : Recovery) (event : ExecProcessEvent) : Recovering Recovery :=
  match recovery.session.ordered.insertPending event with
  | .error message => .error (message, recovery.session)
  | .ok ordered =>
    .ok { recovery with session := { recovery.session with ordered := ordered } }

variable (recovery : Recovery)

def publishReady : Recovery :=
  let published := recovery.session.publishReady
  { recovery with
    session := published.1
    publishedClosed := recovery.publishedClosed || published.2 }

variable (response : ReadResponse)

def insertExit (seq : Nat) : Recovering Recovery :=
  match response.exitCode with
  | none =>
    .error ("recovering exited process did not include its exit code".toList, recovery.session)
  | some exitCode => recovery.insertPending (.exited seq exitCode (some response.sandboxDenied))

/-- A chunk after a gap: the exit is put there if it is not known yet. -/
def fillGap (recovery : Recovery) (chunk : ProcessOutputChunk) : Recovering Recovery :=
  let nextSeq := recovery.session.ordered.lastPublishedSeq + 1
  if response.exited = true ∧ recovery.exitKnown = false ∧ nextSeq < chunk.seq then
    (recovery.insertExit response nextSeq).map fun inserted =>
      { inserted.publishReady with exitKnown := true }
  else .ok recovery

def recoverChunk (targetSeq : Nat) (response : ReadResponse) (recovery : Recovery)
    (chunk : ProcessOutputChunk) : Recovering Recovery :=
  if targetSeq < chunk.seq then
    .error ("recovered process output sequence ".toList ++ Json.nat chunk.seq ++
      " exceeds target sequence ".toList ++ Json.nat targetSeq, recovery.session)
  else do
    let filled ← recovery.fillGap response chunk
    if filled.session.ordered.lastPublishedSeq < chunk.seq then
      (filled.insertPending (.output chunk)).map publishReady
    else .ok filled

def recoverChunks (targetSeq : Nat) (response : ReadResponse) :
    Recovery → List ProcessOutputChunk → Recovering Recovery
  | recovery, [] => .ok recovery
  | recovery, chunk :: rest => do
      let next ← recovery.recoverChunk targetSeq response chunk
      recoverChunks targetSeq response next rest

end Recovery

namespace OrderedSessionEvents

variable (ordered : OrderedSessionEvents) (targetSeq : Nat)

def pendingExit : Option Nat :=
  (List.range (targetSeq + 1)).find? fun seq =>
    (ordered.pending.lookup seq).any ExecProcessEvent.isExited

def markDenied (sandboxDenied : Bool) : ExecProcessEvent → ExecProcessEvent
  | .exited seq exitCode pendingDenied =>
    .exited seq exitCode (some (pendingDenied.getD false || sandboxDenied))
  | event => event

def markPendingExit (sandboxDenied : Bool) : OrderedSessionEvents :=
  match ordered.pendingExit targetSeq with
  | some seq =>
    { ordered with pending := FiniteMap.modify ordered.pending seq (markDenied sandboxDenied) }
  | none => ordered

def unpublishedSeqs : List Nat :=
  List.range' (ordered.lastPublishedSeq + 1) (targetSeq - ordered.lastPublishedSeq)

def missingCount : Nat :=
  let retainedCount := ((ordered.unpublishedSeqs targetSeq).filter fun seq =>
    (ordered.pending.lookup seq).isSome).length
  targetSeq - ordered.lastPublishedSeq - retainedCount

def firstMissingFrom (ordered : OrderedSessionEvents) : Nat → Nat → Nat
  | 0, expected => expected
  | remaining + 1, expected =>
    if (ordered.pending.lookup expected).isSome then
      ordered.firstMissingFrom remaining (expected + 1)
    else expected

def firstMissingSeq : Nat :=
  ordered.firstMissingFrom (targetSeq - ordered.lastPublishedSeq) (ordered.lastPublishedSeq + 1)

end OrderedSessionEvents

def recoveryGapError (targetSeq : Nat) : Text :=
  "process events are no longer retained while recovering through sequence ".toList ++
    Json.nat targetSeq

namespace Recovery

def insertClose (recovery : Recovery) (targetSeq : Nat) : Recovering Recovery :=
  if recovery.session.ordered.closedPublished = true ∨
      (recovery.session.ordered.pending.lookup targetSeq).any ExecProcessEvent.isClosed = true then
    .ok recovery
  else recovery.insertPending (.closed targetSeq)

/-- With all but one event at hand the one that is missing is the exit. -/
def completeExit (recovery : Recovery) (response : ReadResponse) (targetSeq : Nat) :
    Recovering Recovery :=
  let missingCount := recovery.session.ordered.missingCount targetSeq
  if response.exited = true ∧ recovery.exitKnown = false then
    if missingCount ≠ 1 then .error (recoveryGapError targetSeq, recovery.session)
    else recovery.insertExit response (recovery.session.ordered.firstMissingSeq targetSeq)
  else if missingCount ≠ 0 then .error (recoveryGapError targetSeq, recovery.session)
  else .ok recovery

end Recovery

namespace Session

variable (session : Session) (response : ReadResponse)

def closeConflicts (targetSeq : Nat) : Bool :=
  response.closed &&
    ((session.ordered.pending.lookup targetSeq).any (fun event => !event.isClosed) ||
      response.chunks.any fun chunk => decide (chunk.seq = targetSeq))

def recover : Recovering Recovery := do
  let targetSeq := response.nextSeq - 1
  let exitPending := (session.ordered.pendingExit targetSeq).isSome
  let ordered := session.ordered.markPendingExit targetSeq response.sandboxDenied
  let marked : Session := { session with ordered := ordered }
  if marked.closeConflicts response targetSeq then
    .error ("process close sequence ".toList ++ Json.nat targetSeq ++
      " conflicts with recovered output".toList, marked)
  else do
    let chunked ← Recovery.recoverChunks targetSeq response
      { session := marked
        exitKnown := session.ordered.exitPublished || exitPending
        publishedClosed := false } response.chunks
    let closed ← if response.closed then chunked.insertClose targetSeq else .ok chunked
    let completed ← closed.completeExit response targetSeq
    .ok completed.publishReady

def recoverEvents : Except Text Bool × Session :=
  match response.failure with
  | some message => (.error ("process failed while recovering: ".toList ++ message), session)
  | none =>
    if session.ordered.failure.isSome ∨ session.ordered.closedPublished = true ∨
        response.nextSeq - 1 ≤ session.ordered.lastPublishedSeq then
      (.ok false, session)
    else
      match session.recover response with
      | .error (message, reached) => (.error message, reached)
      | .ok recovered => (.ok recovered.publishedClosed, recovered.session)

end Session

inductive SessionAction where
  | notify (event : ExecProcessEvent)
  | recover (response : ReadResponse)
  | fail (message : Text)

/-- Each step returns what the operation returns. -/
def sessionMachine : Machine Session SessionAction (Except Text Bool) where
  step session
    | .notify event =>
      let result := session.publishOrderedEvent event
      some (result.2, [result.1])
    | .recover response =>
      let result := session.recoverEvents response
      some (result.2, [result.1])
    | .fail message => some (session.setFailure message, [.ok false])

end CodexFormal.ExecServer
