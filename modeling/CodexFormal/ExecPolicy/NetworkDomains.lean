import CodexFormal.ExecPolicy.Policy

/-!
# The domains of the network rules

The rules are compiled in their order into allowed and denied hosts.  A rule
that decides takes its host out of both lists and appends it to one, so the last
rule that decides a host settles where it is listed and in which place.
-/

set_option autoImplicit false

namespace CodexFormal.ExecPolicy

open List

def upsertDomain (entries : List String) (host : String) : List String :=
  entries.filter (· ≠ host) ++ [host]

def compileNetworkRule (compiled : List String × List String) (rule : NetworkRule) :
    List String × List String :=
  match rule.decision with
  | .allow => (upsertDomain compiled.1 rule.host, compiled.2.filter (· ≠ rule.host))
  | .forbidden => (compiled.1.filter (· ≠ rule.host), upsertDomain compiled.2 rule.host)
  | .prompt => compiled

variable (rules : List NetworkRule)

/-- The allowed and the denied hosts of a list of network rules. -/
def compiledNetworkDomains : List String × List String :=
  rules.foldl compileNetworkRule ([], [])

variable (host : String)

def NetworkRule.decides (rule : NetworkRule) : Bool :=
  rule.host == host && rule.decision != .prompt

def lastDecision (host : String) : Option Decision :=
  (rules.reverse.find? (NetworkRule.decides host)).map NetworkRule.decision

def rulesAfterDecision (host : String) : Nat :=
  rules.reverse.findIdx (NetworkRule.decides host)

/-- The hosts whose last rule has this decision, in the order of these rules. -/
structure AreDecided (rules : List NetworkRule) (decision : Decision) (hosts : List String) :
    Prop where
  decided : ∀ host, host ∈ hosts ↔ lastDecision rules host = some decision
  ordered : hosts.Pairwise fun earlier later =>
    rulesAfterDecision rules later < rulesAfterDecision rules earlier

section Step

variable (rules : List NetworkRule) (rule : NetworkRule) (decision : Decision) (hosts : List String)
  (pre : AreDecided rules decision hosts)

theorem lastDecision_append (host : String) : lastDecision (rules ++ [rule]) host =
    if rule.decides host then some rule.decision else lastDecision rules host := by
  rw [lastDecision, reverse_append, reverse_singleton, singleton_append, find?_cons]
  cases rule.decides host with
  | _ => rfl

theorem rulesAfterDecision_append (host : String) : rulesAfterDecision (rules ++ [rule]) host =
    if rule.decides host then 0 else rulesAfterDecision rules host + 1 := by
  rw [rulesAfterDecision, reverse_append, reverse_singleton, singleton_append, findIdx_cons]
  cases rule.decides host with
  | _ => rfl

variable {rule} in
theorem decides_iff (decides : rule.decision ≠ .prompt) {host : String} :
    rule.decides host = true ↔ host = rule.host := by
  rw [NetworkRule.decides, Bool.and_eq_true, beq_iff_eq, bne_iff_ne, eq_comm]
  exact and_iff_left decides

include pre

theorem AreDecided.prompted (prompts : rule.decision = .prompt) :
    AreDecided (rules ++ [rule]) decision hosts := by
  have undecided : ∀ host, rule.decides host = false := by
    simp [NetworkRule.decides, prompts]
  constructor
  · intro host
    rw [pre.decided, lastDecision_append, undecided host]
    rfl
  · refine pre.ordered.imp ?_
    intro earlier later less
    rw [rulesAfterDecision_append, rulesAfterDecision_append, undecided, undecided]
    exact Nat.succ_lt_succ less

/-- A rule that decides takes its host out of the list, and appends it where the decision is the
one of the list. -/
theorem AreDecided.moved (decides : rule.decision ≠ .prompt) : AreDecided (rules ++ [rule]) decision
    (hosts.filter (· ≠ rule.host) ++ if rule.decision = decision then [rule.host] else []) := by
  have after : ∀ host ∈ hosts.filter (· ≠ rule.host),
      rulesAfterDecision (rules ++ [rule]) host = rulesAfterDecision rules host + 1 := by
    intro host mem
    have ne : host ≠ rule.host := by simpa using (mem_filter.mp mem).2
    rw [rulesAfterDecision_append, if_neg (mt (decides_iff decides).mp ne)]
  constructor
  · intro host
    rw [mem_append, mem_filter, pre.decided, lastDecision_append]
    by_cases same : host = rule.host
    · rw [if_pos ((decides_iff decides).mpr same)]
      by_cases listed : rule.decision = decision
      · simp [same, listed]
      · simp [same, listed]
    · rw [if_neg (mt (decides_iff decides).mp same)]
      split
      · simp [same]
      · simp [same]
  · refine pairwise_append.mpr ⟨?_, ?_, ?_⟩
    · refine (pre.ordered.sublist filter_sublist).imp_of_mem ?_
      intro earlier later isEarlier isLater less
      rw [after earlier isEarlier, after later isLater]
      exact Nat.succ_lt_succ less
    · split
      · exact pairwise_singleton _ _
      · exact List.Pairwise.nil
    · intro earlier isEarlier later isLater
      split at isLater
      · rw [mem_singleton.mp isLater, after earlier isEarlier, rulesAfterDecision_append,
          if_pos ((decides_iff decides).mpr rfl)]
        exact Nat.succ_pos _
      · cases isLater

end Step

theorem compiledNetworkDomains_areDecided (rules : List NetworkRule) :
    AreDecided rules .allow (compiledNetworkDomains rules).1 ∧
    AreDecided rules .forbidden (compiledNetworkDomains rules).2 := by
  induction rules using List.reverseRecOn with
  | nil => exact ⟨⟨by simp [compiledNetworkDomains, lastDecision], List.Pairwise.nil⟩,
      ⟨by simp [compiledNetworkDomains, lastDecision], List.Pairwise.nil⟩⟩
  | append_singleton rules rule ih =>
    obtain ⟨may, denied⟩ := ih
    have step : compiledNetworkDomains (rules ++ [rule]) =
        compileNetworkRule (compiledNetworkDomains rules) rule := by
      rw [compiledNetworkDomains, foldl_append]
      rfl
    rw [step, compileNetworkRule]
    have movedAllowed := may.moved rules rule .allow _
    have movedDenied := denied.moved rules rule .forbidden _
    split
    next decision =>
      simp only [decision, upsertDomain] at movedAllowed movedDenied ⊢
      exact ⟨movedAllowed (by decide), by simpa using movedDenied (by decide)⟩
    next decision =>
      simp only [decision, upsertDomain] at movedAllowed movedDenied ⊢
      exact ⟨by simpa using movedAllowed (by decide), movedDenied (by decide)⟩
    next isPrompt =>
      exact ⟨may.prompted _ _ _ _ isPrompt, denied.prompted _ _ _ _ isPrompt⟩

theorem compiledNetworkDomains_lastRuleWins (rules : List NetworkRule) :
    AreDecided rules .allow (compiledNetworkDomains rules).1 ∧
      AreDecided rules .forbidden (compiledNetworkDomains rules).2 ∧
      (compiledNetworkDomains rules).1.Nodup ∧ (compiledNetworkDomains rules).2.Nodup ∧
      (compiledNetworkDomains rules).1.Disjoint (compiledNetworkDomains rules).2 := by
  obtain ⟨allowed, denied⟩ := compiledNetworkDomains_areDecided rules
  have nodup : ∀ {decision hosts}, AreDecided rules decision hosts → hosts.Nodup := by
    intro decision hosts areDecided
    refine areDecided.ordered.imp fun less same => ?_
    rw [same] at less
    exact Nat.lt_irrefl _ less
  refine ⟨allowed, denied, nodup allowed, nodup denied, fun host isAllowed isDenied => ?_⟩
  rw [allowed.decided] at isAllowed
  rw [denied.decided, isAllowed] at isDenied
  cases isDenied

end CodexFormal.ExecPolicy
