import CodexFormal.RemoteControl.ClientTracker

/-!
# Which connection a close is about

A completed outbound task is identified by its client key only.  The invariant
below says that the connection registered under a key is the one whose task was
spawned last for that key, so a collected task closes its own connection
exactly when it is the newest task of its key.
-/

set_option autoImplicit false

namespace CodexFormal.RemoteControl

open Foundation List FiniteMap

namespace ClientTracker

variable (tracker : ClientTracker)

/-- The key and the connection of every task ever spawned, newest first. -/
def identities : List (ClientKey × ConnectionId) :=
  tracker.joinSet.map fun task => (task.clientKey, task.disconnectToken)

/-- The connection whose task was spawned last for the key. -/
def newestConnection (clientKey : ClientKey) : Option ConnectionId :=
  (tracker.identities.find? fun identity => decide (identity.1 = clientKey)).map
    Prod.snd

structure IdentityInvariant (tracker : ClientTracker) : Prop where
  newest : ∀ clientKey client, tracker.clients.lookup clientKey = some client →
    tracker.newestConnection clientKey = some client.connectionId
  distinct : (tracker.identities.map Prod.snd).Nodup
  allocated : ∀ identity ∈ tracker.identities,
    identity.2 < tracker.nextConnectionId

/-- What every operation other than opening a connection does to the tracker:
no task is spawned, and every client that is left was there before with the
same connection. -/
structure Shrinks (before after : ClientTracker) : Prop where
  identities : after.identities = before.identities
  allocation : before.nextConnectionId ≤ after.nextConnectionId
  clients : ∀ clientKey client, after.clients.lookup clientKey = some client →
    ∃ old, before.clients.lookup clientKey = some old ∧
      old.connectionId = client.connectionId

variable (tracker : ClientTracker)

theorem Shrinks.refl : Shrinks tracker tracker :=
  ⟨rfl, Nat.le_refl _, fun _ client found => ⟨client, found, rfl⟩⟩

theorem Shrinks.trans {first second third : ClientTracker}
    (left : Shrinks first second) (right : Shrinks second third) : Shrinks first third := by
  refine ⟨right.identities.trans left.identities, Nat.le_trans left.allocation right.allocation, ?_⟩
  intro clientKey client found
  obtain ⟨mid, middleFound, middleSame⟩ := right.clients clientKey client found
  obtain ⟨old, oldFound, oldSame⟩ := left.clients clientKey mid middleFound
  exact ⟨old, oldFound, oldSame.trans middleSame⟩

theorem IdentityInvariant.of_shrinks {pre after : ClientTracker}
    (inv : IdentityInvariant pre) (shrinks : Shrinks pre after) : IdentityInvariant after := by
  refine ⟨?_, ?_, ?_⟩
  · intro clientKey client found
    obtain ⟨old, oldFound, sameConnection⟩ := shrinks.clients clientKey client found
    have newest := inv.newest clientKey old oldFound
    rw [newestConnection, shrinks.identities, ← sameConnection]
    exact newest
  · rw [shrinks.identities]
    exact inv.distinct
  · rw [shrinks.identities]
    intro ident mem
    exact Nat.lt_of_lt_of_le (inv.allocated ident mem) shrinks.allocation

theorem new_identityInvariant : IdentityInvariant new := by
  refine ⟨?_, ?_, ?_⟩ <;> simp [new, identities]

variable (clientKey : ClientKey) (client : ClientState)

theorem removeClient_eq_some (gone : ClientTracker)
    (res : tracker.removeClient clientKey = some (client, gone)) :
    tracker.clients.lookup clientKey = some client ∧
    gone.clients = tracker.clients.erase clientKey ∧ gone.joinSet = tracker.joinSet ∧
    gone.nextConnectionId = tracker.nextConnectionId := by
  unfold removeClient at res
  cases found : tracker.clients.lookup clientKey with
  | none => simp [found] at res
  | some known =>
    simp only [found, Option.some.injEq, Prod.mk.injEq] at res
    obtain ⟨rfl, rfl⟩ := res
    exact ⟨rfl, rfl, rfl, rfl⟩

theorem shrinks_of_erase {pre after : ClientTracker} {clientKey : ClientKey}
    (clients : after.clients = pre.clients.erase clientKey) (joinSet : after.joinSet = pre.joinSet)
    (allocation : after.nextConnectionId = pre.nextConnectionId) : Shrinks pre after := by
  refine ⟨by rw [identities, identities, joinSet], by rw [allocation], ?_⟩
  intro other client found
  rw [clients, lookup_erase_eq_ite] at found
  split at found
  · contradiction
  · exact ⟨client, found, rfl⟩

theorem shrinks_of_insert (pre after : ClientTracker) (clientKey : ClientKey)
    (old client : ClientState) (known : pre.clients.lookup clientKey = some old)
    (sameConnection : old.connectionId = client.connectionId)
    (clients : after.clients = pre.clients.insert clientKey client)
    (joinSet : after.joinSet = pre.joinSet)
    (allocation : after.nextConnectionId = pre.nextConnectionId) : Shrinks pre after := by
  refine ⟨by rw [identities, identities, joinSet], by rw [allocation], ?_⟩
  intro other found lookup
  rw [clients, lookup_insert_eq_ite] at lookup
  split at lookup
  next same =>
    cases Option.some.inj lookup
    exact ⟨old, by rw [same, known], sameConnection⟩
  · exact ⟨found, lookup, rfl⟩

variable (accepts : TransportEvent → Bool)

theorem closeClient_cases (clientKey : ClientKey) : (tracker.clients.lookup clientKey = none ∧
    tracker.closeClient accepts clientKey = ⟨tracker, [], [], false⟩) ∨
    ∃ client removed, tracker.clients.lookup clientKey = some client ∧
    removed.clients = tracker.clients.erase clientKey ∧ Shrinks tracker removed ∧
    tracker.closeClient accepts clientKey = ⟨removed, [.connectionClosed client.connectionId], [],
    !accepts (.connectionClosed client.connectionId)⟩ := by
  cases res : tracker.removeClient clientKey with
  | none =>
    have gone : tracker.clients.lookup clientKey = none := by
      cases found : tracker.clients.lookup clientKey with
      | none => rfl
      | some client => simp [removeClient, found] at res
    exact .inl ⟨gone, by simp [closeClient, res]⟩
  | some pair =>
    obtain ⟨client, removed⟩ := pair
    obtain ⟨found, clients, joinSet, allocation⟩ :=
      tracker.removeClient_eq_some clientKey client removed res
    refine .inr ⟨client, removed.cancel client.connectionId, found, clients, ?_, ?_⟩
    · exact shrinks_of_erase clients joinSet allocation
    · simp [closeClient, res, sendTransportEvent]

theorem closeClient_shrinks (clientKey : ClientKey) :
    Shrinks tracker (tracker.closeClient accepts clientKey).tracker := by
  rcases tracker.closeClient_cases accepts clientKey with
    ⟨_, res⟩ | ⟨client, gone, _, _, shrinks, res⟩
  · rw [res]
    exact Shrinks.refl tracker
  · rw [res]
    exact shrinks

theorem closeClient_closes (clientKey : ClientKey) (connectionId : ConnectionId) :
    .connectionClosed connectionId ∈ (tracker.closeClient accepts clientKey).events ↔
    ∃ client, tracker.clients.lookup clientKey = some client ∧
    client.connectionId = connectionId := by
  rcases tracker.closeClient_cases accepts clientKey with
    ⟨gone, res⟩ | ⟨client, removed, found, _, _, res⟩
  · simp [res, gone]
  · simp [res, found, eq_comm]

theorem closeClient_lookup (clientKey other : ClientKey) :
    (tracker.closeClient accepts clientKey).tracker.clients.lookup other =
    if other = clientKey then none else tracker.clients.lookup other := by
  rcases tracker.closeClient_cases accepts clientKey with
    ⟨gone, res⟩ | ⟨client, removed, found, clients, _, res⟩
  · rw [res]
    split
    next same =>
      rw [same, gone]
    · rfl
  · rw [res]
    simp only [clients]
    exact lookup_erase_eq_ite tracker.clients clientKey other

theorem closeClients_shrinks (clientKeys : List ClientKey) (tracker : ClientTracker) :
    Shrinks tracker (closeClients accepts tracker clientKeys).tracker := by
  induction clientKeys generalizing tracker with
  | nil => exact Shrinks.refl tracker
  | cons clientKey rest ih =>
    simp only [closeClients]
    split
    · exact tracker.closeClient_shrinks accepts clientKey
    · exact (tracker.closeClient_shrinks accepts clientKey).trans (ih _)

/-- A close emitted by a sweep is about a client registered before the sweep
under one of the swept keys. -/
theorem closeClients_closes (clientKeys : List ClientKey) (tracker : ClientTracker)
    (connectionId : ConnectionId) (emitted : .connectionClosed connectionId ∈
    (closeClients accepts tracker clientKeys).events) : ∃ clientKey ∈ clientKeys, ∃ client,
    tracker.clients.lookup clientKey = some client ∧ client.connectionId = connectionId := by
  induction clientKeys generalizing tracker with
  | nil => simp [closeClients] at emitted
  | cons clientKey rest ih =>
    have here : .connectionClosed connectionId ∈ (tracker.closeClient accepts clientKey).events →
        ∃ other ∈ clientKey :: rest, ∃ client, tracker.clients.lookup other = some client ∧
          client.connectionId = connectionId := by
      intro first
      obtain ⟨client, found, same⟩ :=
        (tracker.closeClient_closes accepts clientKey connectionId).mp first
      exact ⟨clientKey, mem_cons_self .., client, found, same⟩
    simp only [closeClients] at emitted
    split at emitted
    · exact here emitted
    · rcases mem_append.mp emitted with first | later
      · exact here first
      · obtain ⟨other, mem, client, found, same⟩ := ih _ later
        rw [closeClient_lookup] at found
        split at found
        · contradiction
        · exact ⟨other, mem_cons_of_mem _ mem, client, found, same⟩

variable (seqId : Option Nat)

theorem recordInboundMessageDelivery_shrinks :
    Shrinks tracker (tracker.recordInboundMessageDelivery clientKey seqId) := by
  cases seqId with
  | none => exact Shrinks.refl tracker
  | some seqId =>
    refine ⟨rfl, Nat.le_refl _, ?_⟩
    intro other client found
    simp only [recordInboundMessageDelivery, lookup_modify_eq_ite] at found
    split at found
    next same =>
      obtain ⟨old, oldFound, rfl⟩ := Option.map_eq_some_iff.mp found
      exact ⟨old, by rw [same, oldFound], rfl⟩
    · exact ⟨client, found, rfl⟩

variable (now : Nat)

theorem forwardMessage_shrinks (accepts : TransportEvent → Bool) (clientKey : ClientKey)
    (client : ClientState) (seqId : Option Nat) (msg : JSONRPCMessage)
    (known : tracker.clients.lookup clientKey = some client) : Shrinks tracker
    (tracker.forwardMessage now accepts clientKey client seqId msg).tracker := by
  have hit : Shrinks tracker { tracker with
        clients := tracker.clients.insert clientKey { client with lastActivityAt := now } } :=
    shrinks_of_insert tracker _ clientKey client { client with lastActivityAt := now }
      known rfl rfl rfl rfl
  simp only [forwardMessage]
  split
  · exact hit.trans (recordInboundMessageDelivery_shrinks _ clientKey seqId)
  · exact hit

theorem handlePing_shrinks (clientKey : ClientKey) :
    Shrinks tracker (tracker.handlePing now clientKey).tracker := by
  unfold handlePing
  cases found : tracker.clients.lookup clientKey with
  | none => exact Shrinks.refl tracker
  | some client =>
    exact shrinks_of_insert tracker _ clientKey client
      { client with lastActivityAt := now } found rfl rfl rfl rfl

theorem setTaskStatus_shrinks (token : ConnectionId) (status : TaskStatus) :
    Shrinks tracker (tracker.setTaskStatus token status) := by
  refine ⟨?_, Nat.le_refl _, fun _ client found => ⟨client, found, rfl⟩⟩
  simp only [identities, setTaskStatus, map_map]
  apply map_congr_left
  intro task _
  simp only [Function.comp_apply]
  split <;> rfl

theorem shutdown_shrinks : Shrinks tracker tracker.shutdown.tracker := by
  have cancelled : Shrinks tracker { tracker with shutdownToken := true } :=
    ⟨rfl, Nat.le_refl _, fun _ client found => ⟨client, found, rfl⟩⟩
  have closed := closeClients_shrinks (fun _ => true) tracker.clients.keys
    { tracker with shutdownToken := true }
  refine (cancelled.trans closed).trans ⟨?_, Nat.le_refl _, fun _ client found =>
    ⟨client, found, rfl⟩⟩
  simp [identities, shutdown]

variable (fresh : StreamId) (envelope : ClientEnvelope)

theorem resolveStreamId_clients :
    (tracker.resolveStreamId fresh envelope).2.clients = tracker.clients := by
  unfold resolveStreamId
  repeat' split
  all_goals rfl

theorem resolveStreamId_shrinks : Shrinks tracker (tracker.resolveStreamId fresh envelope).2 := by
  unfold resolveStreamId
  repeat' split
  all_goals exact ⟨rfl, Nat.le_refl _, fun _ client found => ⟨client, found, rfl⟩⟩

theorem resolveStreamId_nextConnectionId :
    (tracker.resolveStreamId fresh envelope).2.nextConnectionId = tracker.nextConnectionId := by
  unfold resolveStreamId
  repeat' split
  all_goals rfl

theorem closeClient_nextConnectionId (clientKey : ClientKey) :
    (tracker.closeClient accepts clientKey).tracker.nextConnectionId =
    tracker.nextConnectionId := by
  unfold closeClient removeClient
  cases tracker.clients.lookup clientKey <;> rfl

theorem register_identityInvariant (clientKey : ClientKey) (connId : ConnectionId) (isLegacy : Bool)
    (inv : IdentityInvariant tracker) (unused : ∀ ident ∈ tracker.identities, ident.2 < connId)
    (allocated : connId < tracker.nextConnectionId) : IdentityInvariant
    (tracker.register now clientKey connId isLegacy) := by
  have spawned : (tracker.register now clientKey connId isLegacy).identities =
    (clientKey, connId) :: tracker.identities := rfl
  refine ⟨?_, ?_, ?_⟩
  · intro other client found
    simp only [register, lookup_insert_eq_ite] at found
    rw [newestConnection, spawned]
    by_cases same : other = clientKey
    · rw [if_pos same] at found
      cases Option.some.inj found
      simp [same]
    · rw [if_neg same] at found
      have skipped : ¬ clientKey = other := fun equal => same equal.symm
      rw [find?_cons_of_neg (by simpa using skipped)]
      exact inv.newest other client found
  · rw [spawned, map_cons, nodup_cons]
    refine ⟨?_, inv.distinct⟩
    intro mem
    obtain ⟨ident, identityMem, equal⟩ := mem_map.mp mem
    have bound := unused ident identityMem
    rw [equal] at bound
    exact Nat.lt_irrefl _ bound
  · rw [spawned]
    intro ident mem
    rcases mem_cons.mp mem with rfl | mem
    · exact allocated
    · exact inv.allocated ident mem

theorem openConnection_identityInvariant (accepts : TransportEvent → Bool) (clientKey : ClientKey)
    (isLegacy : Bool) (seqId : Option Nat) (msg : JSONRPCMessage)
    (inv : IdentityInvariant tracker) :
    IdentityInvariant (tracker.openConnection now accepts clientKey
    isLegacy seqId msg).tracker := by
  have allocated : Shrinks tracker
      { tracker with nextConnectionId := tracker.nextConnectionId + 1 } :=
    ⟨rfl, Nat.le_succ _, fun _ client found => ⟨client, found, rfl⟩⟩
  have known := register_identityInvariant
    { tracker with nextConnectionId := tracker.nextConnectionId + 1 } now clientKey
    tracker.nextConnectionId isLegacy (inv.of_shrinks allocated)
    inv.allocated (Nat.lt_succ_self _)
  unfold openConnection
  simp only
  split
  · split
    · split
      · exact known
      · exact known.of_shrinks (recordInboundMessageDelivery_shrinks _ _ _)
    · split
      · exact known
      next client gone res =>
        obtain ⟨_, clients, joinSet, allocation⟩ :=
          removeClient_eq_some _ clientKey client gone res
        exact known.of_shrinks (shrinks_of_erase clients joinSet allocation)
  · exact inv.of_shrinks allocated

theorem openConnection_closes (accepts : TransportEvent → Bool) (clientKey : ClientKey)
    (isLegacy : Bool) (seqId : Option Nat) (msg : JSONRPCMessage) (connectionId : ConnectionId)
    (emitted : .connectionClosed connectionId ∈ (tracker.openConnection now accepts
    clientKey isLegacy seqId msg).events) : connectionId = tracker.nextConnectionId := by
  unfold openConnection at emitted
  simp only at emitted
  split at emitted
  · split at emitted
    · simp at emitted
    · split at emitted
      · simp at emitted
      next client gone res =>
        obtain ⟨found, _⟩ := removeClient_eq_some _ clientKey client gone res
        simp only [register, AList.lookup_insert, Option.some.injEq] at found
        have same : connectionId = client.connectionId := by simpa using emitted
        rw [same, ← found]
  · simp at emitted

theorem forwardMessage_closes_nothing (accepts : TransportEvent → Bool) (clientKey : ClientKey)
    (client : ClientState) (seqId : Option Nat) (msg : JSONRPCMessage)
    (connId : ConnectionId) : .connectionClosed connId ∉
    (tracker.forwardMessage now accepts clientKey client seqId msg).events := by
  simp only [forwardMessage]
  split <;> simp

theorem closeBeforeReopen_spec (clientKey : ClientKey) (envelope : ClientEnvelope) :
    Shrinks tracker (tracker.closeBeforeReopen accepts clientKey envelope).tracker ∧
    (tracker.closeBeforeReopen accepts clientKey envelope).tracker.nextConnectionId =
    tracker.nextConnectionId ∧ ∀ connectionId, .connectionClosed connectionId ∈
    (tracker.closeBeforeReopen accepts clientKey envelope).events →
    envelope.isInitialize = true ∧ ∃ client, tracker.clients.lookup clientKey = some client ∧
    client.connectionId = connectionId := by
  simp only [closeBeforeReopen]
  split
  next reopened =>
    simp only [Bool.and_eq_true] at reopened
    exact ⟨tracker.closeClient_shrinks accepts clientKey,
      tracker.closeClient_nextConnectionId accepts clientKey,
      fun connectionId emitted => ⟨reopened.1,
      (tracker.closeClient_closes accepts clientKey connectionId).mp emitted⟩⟩
  · exact ⟨Shrinks.refl tracker, rfl, by simp⟩

theorem handleClientMessage_spec (accepts : TransportEvent → Bool) (clientKey : ClientKey)
    (envelope : ClientEnvelope) (msg : JSONRPCMessage) (inv : IdentityInvariant tracker) :
    IdentityInvariant (tracker.handleClientMessage now accepts clientKey envelope msg).tracker ∧
    ∀ connectionId, .connectionClosed connectionId ∈
    (tracker.handleClientMessage now accepts clientKey envelope msg).events →
    envelope.isInitialize = true ∧ ((∃ client, tracker.clients.lookup clientKey = some client ∧
    client.connectionId = connectionId) ∨ connectionId = tracker.nextConnectionId) := by
  simp only [handleClientMessage]
  split
  · exact ⟨inv, by simp⟩
  · obtain ⟨shrinks, sameNext, closes⟩ :=
      tracker.closeBeforeReopen_spec accepts clientKey envelope
    generalize tracker.closeBeforeReopen accepts clientKey envelope = closed at *
    have closedInv := inv.of_shrinks shrinks
    have fromClosed : ∀ connectionId, .connectionClosed connectionId ∈ closed.events →
        envelope.isInitialize = true ∧ ((∃ client, tracker.clients.lookup clientKey = some client ∧
          client.connectionId = connectionId) ∨
          connectionId = tracker.nextConnectionId) := by
      intro connectionId emitted
      obtain ⟨starts, known⟩ := closes connectionId emitted
      exact ⟨starts, .inl known⟩
    split
    · exact ⟨closedInv, fromClosed⟩
    · cases found : closed.tracker.clients.lookup clientKey with
      | some client =>
        refine ⟨closedInv.of_shrinks (closed.tracker.forwardMessage_shrinks now
          accepts clientKey client envelope.seqId msg found), ?_⟩
        intro connectionId emitted
        rcases mem_append.mp emitted with early | late
        · exact fromClosed connectionId early
        · exact absurd late (closed.tracker.forwardMessage_closes_nothing now accepts
            clientKey client envelope.seqId msg connectionId)
      | none =>
        simp only
        split
        next starts =>
          refine ⟨closed.tracker.openConnection_identityInvariant now accepts clientKey
            _ envelope.seqId msg closedInv, ?_⟩
          intro connectionId emitted
          rcases mem_append.mp emitted with early | late
          · exact fromClosed connectionId early
          · have opened := closed.tracker.openConnection_closes now accepts clientKey
              _ envelope.seqId msg connectionId late
            exact ⟨starts, .inr (opened.trans sameNext)⟩
        · refine ⟨closedInv, ?_⟩
          intro connectionId emitted
          exact fromClosed connectionId (by simpa using emitted)

def messageKey (fresh : StreamId) (envelope : ClientEnvelope) : ClientKey :=
  (envelope.clientId, (tracker.resolveStreamId fresh envelope).1)

/-- The step closes the connection because of that connection itself: its
client sent an initialize or a close under the connection's own key (an
initialize may also fail to be forwarded, which closes the connection it was
opening), its client expired, its own outbound task was collected, or the
tracker shut down. -/
def ClosedBecauseOf (before : ClientTracker) : TrackerStep → ConnectionId → Prop
  | .handleMessage _ fresh _ envelope, connectionId =>
    (envelope.isInitialize = true ∧ connectionId = before.nextConnectionId) ∨
      ((envelope.isInitialize = true ∨ envelope.event = .clientClosed) ∧
        ∃ client, before.clients.lookup (before.messageKey fresh envelope) =
            some client ∧ client.connectionId = connectionId)
  | .closeExpiredClients now _, connectionId =>
    ∃ clientKey client, before.clients.lookup clientKey = some client ∧
      client.connectionId = connectionId ∧ clientIsAlive client now = false
  | .collect ownConnection _, connectionId => connectionId = ownConnection
  | .shutdown, _ => True
  | .disconnect _, _ => False
  | .outboundEnds _ _, _ => False
  | .collectFailed _, _ => False

/-- A collected task is the newest one spawned for its key, unless no client is
registered under that key. -/
def CollectsNewest (before : ClientTracker) : TrackerStep → Prop
  | .collect ownConnection _ => ∀ task ∈ before.findTask ownConnection,
      before.clients.lookup task.clientKey = none ∨
        before.newestConnection task.clientKey = some ownConnection
  | _ => True

instance (before : ClientTracker) : (label : TrackerStep) → Decidable (before.CollectsNewest label)
  | .collect ownConnection _ => inferInstanceAs (Decidable
      (∀ task ∈ before.findTask ownConnection,
        before.clients.lookup task.clientKey = none ∨
          before.newestConnection task.clientKey = some ownConnection))
  | .handleMessage _ _ _ _ => inferInstanceAs (Decidable True)
  | .closeExpiredClients _ _ => inferInstanceAs (Decidable True)
  | .disconnect _ => inferInstanceAs (Decidable True)
  | .outboundEnds _ _ => inferInstanceAs (Decidable True)
  | .collectFailed _ => inferInstanceAs (Decidable True)
  | .shutdown => inferInstanceAs (Decidable True)

theorem handleMessage_spec (accepts : TransportEvent → Bool)
    (envelope : ClientEnvelope) (inv : IdentityInvariant tracker) :
    IdentityInvariant (tracker.handleMessage now fresh accepts envelope).tracker ∧
    ∀ connectionId, .connectionClosed connectionId ∈
    (tracker.handleMessage now fresh accepts envelope).events →
    tracker.ClosedBecauseOf (.handleMessage now fresh accepts envelope) connectionId := by
  have resolvedInv :=
    inv.of_shrinks (tracker.resolveStreamId_shrinks fresh envelope)
  have sameClients := tracker.resolveStreamId_clients fresh envelope
  have sameNext := tracker.resolveStreamId_nextConnectionId fresh envelope
  simp only [handleMessage]
  split
  · exact ⟨resolvedInv, by simp⟩
  · cases event : envelope.event with
    | clientMessage msg =>
      obtain ⟨done, closes⟩ := handleClientMessage_spec _ now accepts
        (tracker.messageKey fresh envelope) envelope msg resolvedInv
      refine ⟨done, ?_⟩
      intro connectionId emitted
      obtain ⟨starts, cause⟩ := closes connectionId emitted
      rw [sameClients, sameNext] at cause
      rcases cause with known | opened
      · exact .inr ⟨.inl starts, known⟩
      · exact .inl ⟨starts, opened⟩
    | clientMessageChunk segmentId segCount msgSize chunk =>
      exact ⟨resolvedInv, by simp⟩
    | ack segmentId => exact ⟨resolvedInv, by simp⟩
    | ping =>
      refine ⟨resolvedInv.of_shrinks (handlePing_shrinks _ now _), ?_⟩
      intro connectionId emitted
      simp only [handlePing] at emitted
      split at emitted <;> simp at emitted
    | clientClosed =>
      refine ⟨resolvedInv.of_shrinks (closeClient_shrinks _ accepts _), ?_⟩
      intro connectionId emitted
      have known := (closeClient_closes _ accepts _ connectionId).mp emitted
      rw [sameClients] at known
      exact .inr ⟨.inr event, known⟩

theorem expiredClients_closes (accepts : TransportEvent → Bool) (connectionId : ConnectionId)
    (emitted : .connectionClosed connectionId ∈ (tracker.closeExpiredClients now accepts).events) :
    tracker.ClosedBecauseOf (.closeExpiredClients now accepts) connectionId := by
  obtain ⟨clientKey, mem, client, found, same⟩ :=
    closeClients_closes accepts _ tracker connectionId emitted
  obtain ⟨entry, entryMem, keyEq⟩ := mem_map.mp mem
  obtain ⟨entryIn, expired⟩ := mem_filter.mp entryMem
  obtain ⟨entryKey, entryClient⟩ := entry
  cases keyEq
  have entryFound := (mem_entries_iff_lookup _ _ _).mp entryIn
  rw [found] at entryFound
  cases Option.some.inj entryFound
  exact ⟨entryKey, client, found, same, by simpa using expired⟩

/-- In a tracker that satisfies the invariant, a collected task closes only its
own connection exactly when it is the newest task of its key. -/
theorem collect_closes_own_iff (ownConnection : ConnectionId)
    (task : OutboundTask) (inv : IdentityInvariant tracker)
    (found : tracker.findTask ownConnection = some task) : (∀ connId, .connectionClosed connId ∈
    ((tracker.setTaskStatus ownConnection .collected).closeClient accepts
    task.clientKey).events → connId = ownConnection) ↔
    tracker.CollectsNewest (.collect ownConnection accepts) := by
  have sameClients : (tracker.setTaskStatus ownConnection .collected).clients =
    tracker.clients := rfl
  simp only [closeClient_closes, sameClients, CollectsNewest, found, Option.mem_def,
    Option.some.injEq, forall_eq']
  cases known : tracker.clients.lookup task.clientKey with
  | none => simp
  | some client =>
    have newest := inv.newest task.clientKey client known
    simp [newest]

theorem step_identityInvariant : machine.Preserves IdentityInvariant := by
  intro tracker label after outputs inv ran
  cases label with
  | handleMessage now fresh accepts envelope =>
    cases Option.some.inj ran
    exact (tracker.handleMessage_spec now fresh accepts envelope inv).1
  | closeExpiredClients now accepts =>
    cases Option.some.inj ran
    exact inv.of_shrinks (closeClients_shrinks accepts _ tracker)
  | disconnect connId =>
    cases Option.some.inj ran
    exact inv.of_shrinks ⟨rfl, Nat.le_refl _, fun _ client found => ⟨client, found, rfl⟩⟩
  | outboundEnds connId reason =>
    simp only [machine, step] at ran
    split at ran
    · split at ran
      · cases Option.some.inj ran
        exact inv.of_shrinks (tracker.setTaskStatus_shrinks connId .ended)
      · contradiction
    · contradiction
  | collect connId accepts =>
    simp only [machine, step] at ran
    split at ran
    · cases Option.some.inj ran
      exact inv.of_shrinks ((tracker.setTaskStatus_shrinks connId .collected).trans
        (closeClient_shrinks _ accepts _))
    · contradiction
  | collectFailed connId =>
    simp only [machine, step] at ran
    split at ran
    · cases Option.some.inj ran
      exact inv.of_shrinks (tracker.setTaskStatus_shrinks connId .collected)
    · contradiction
  | shutdown =>
    cases Option.some.inj ran
    exact inv.of_shrinks tracker.shutdown_shrinks

/-- One step closes connections only because of themselves exactly when it does
not collect a superseded task. -/
theorem step_ownCause_iff {tracker after : ClientTracker} {label : TrackerStep}
    {outputs : List TransportEvent} (inv : IdentityInvariant tracker)
    (ran : tracker.step label = some (after, outputs)) :
    (∀ connId, .connectionClosed connId ∈ outputs →
    tracker.ClosedBecauseOf label connId) ↔ tracker.CollectsNewest label := by
  cases label with
  | handleMessage now fresh accepts envelope =>
    cases Option.some.inj ran
    exact iff_of_true (tracker.handleMessage_spec now fresh accepts envelope inv).2 trivial
  | closeExpiredClients now accepts =>
    cases Option.some.inj ran
    exact iff_of_true (tracker.expiredClients_closes now accepts) trivial
  | disconnect connId =>
    cases Option.some.inj ran
    exact iff_of_true (by simp) trivial
  | outboundEnds connId reason =>
    simp only [step] at ran
    split at ran
    · split at ran
      · cases Option.some.inj ran
        exact iff_of_true (by simp) trivial
      · contradiction
    · contradiction
  | collect ownConnection accepts =>
    simp only [step] at ran
    split at ran
    next found =>
      cases Option.some.inj ran
      exact tracker.collect_closes_own_iff accepts ownConnection _ inv found
    · contradiction
  | collectFailed connId =>
    simp only [step] at ran
    split at ran
    · cases Option.some.inj ran
      exact iff_of_true (by simp) trivial
    · contradiction
  | shutdown =>
    cases Option.some.inj ran
    exact iff_of_true (fun _ _ => trivial) trivial

/-- In every run from a new tracker, closes are caused by the closed connection
itself exactly when no collected task has been superseded under its key. -/
theorem connectionClosed_ownCause_iff (labels : List TrackerStep)
    (taken : List (Taken ClientTracker TrackerStep TransportEvent))
    (traced : machine.trace new labels = some taken) :
    (∀ event ∈ taken, ∀ connectionId,
        .connectionClosed connectionId ∈ event.outputs →
          event.before.ClosedBecauseOf event.label connectionId) ↔
      ∀ event ∈ taken, event.before.CollectsNewest event.label := by
  have steps := machine.trace_preserves IdentityInvariant step_identityInvariant labels
    new taken new_identityInvariant traced
  refine forall₂_congr ?_
  intro event mem
  obtain ⟨invariant, stepped⟩ := steps event mem
  exact step_ownCause_iff invariant stepped

/-- A client message of one client and stream, with every send accepted. -/
def messageStep (now seqId : Nat) (message : JSONRPCMessage) : TrackerStep :=
  .handleMessage now ⟨"unused"⟩ (fun _ => true)
    ⟨.clientMessage message, ⟨"client-1"⟩, some ⟨"stream-1"⟩, some seqId, none⟩

def initializeMessage : JSONRPCMessage :=
  .request (.integer 1) "initialize" none

theorem own_completion_closes_own :
    ∃ taken, machine.trace new
        [messageStep 0 0 initializeMessage, .outboundEnds 0 .writerClosed,
          .collect 0 (fun _ => true)] = some taken ∧
      ∀ event ∈ taken, ∀ connectionId,
        .connectionClosed connectionId ∈ event.outputs →
          event.before.ClosedBecauseOf event.label connectionId := by
  have newest : ∃ taken, machine.trace new
      [messageStep 0 0 initializeMessage, .outboundEnds 0 .writerClosed,
        .collect 0 (fun _ => true)] = some taken ∧
      ∀ event ∈ taken, event.before.CollectsNewest event.label :=
    ⟨_, rfl, by decide⟩
  obtain ⟨taken, traced, collects⟩ := newest
  exact ⟨taken, traced, (connectionClosed_ownCause_iff _ taken traced).mpr collects⟩

/-- The client initializes twice under one key; the first connection's task
ends on its cancelled token and is collected after the second connection was
opened, and the second connection is closed. -/
theorem superseded_completion_closes_newer :
    ¬ ∀ labels taken, machine.trace new labels = some taken →
      ∀ event ∈ taken, ∀ connectionId,
        .connectionClosed connectionId ∈ event.outputs →
          event.before.ClosedBecauseOf event.label connectionId := by
  intro claim
  have closesNewer : ∃ middle earlier after, machine.run new [messageStep 0 0 initializeMessage,
        messageStep 1 1 initializeMessage, .outboundEnds 0 .tokenCancelled] =
        some (middle, earlier) ∧
      machine.step middle (.collect 0 fun _ => true) = some (after, [.connectionClosed 1]) :=
    ⟨_, _, _, rfl, rfl⟩
  obtain ⟨middle, earlier, after, run, stepped⟩ := closesNewer
  obtain ⟨taken, traced, mem⟩ :=
    machine.exists_taken_of_run _ _ new middle after earlier _ run stepped
  have cause : (1 : ConnectionId) = 0 := claim _ taken traced _ mem 1 (by simp)
  exact absurd cause (by decide)

end ClientTracker

end CodexFormal.RemoteControl
