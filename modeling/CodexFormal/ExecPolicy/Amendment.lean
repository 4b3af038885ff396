import CodexFormal.ExecPolicy.MergeOverlay

/-!
# Amendments of a policy

An approved command is added as an allow rule to the rules file and to the policy in
memory, where the rule is left out if the command is already allowed.  After a restart
the rule is there in any case, and then it ends the search for rules of the base name.
-/

set_option autoImplicit false

namespace CodexFormal.ExecPolicy

open Foundation List Option

def RuleMatch.isPolicyMatch {AbsolutePath : Type} : RuleMatch AbsolutePath → Bool
  | .prefixRuleMatch _ _ _ _ => true
  | .heuristicsRuleMatch _ _ => false

/-- The rule for a command whose tokens are matched one by one. -/
def PrefixRule.literal (first : String) (rest : List String) (decision : Decision) : PrefixRule
  where
  pattern := ⟨first, rest.map .single⟩
  decision := decision
  justification := none

namespace Policy

variable {AbsolutePath : Type}

/-- An empty command is refused. -/
def addPrefixRule (policy : Policy AbsolutePath) (command : List String) (decision : Decision) :
    Option (Policy AbsolutePath) :=
  match command with
  | [] => none
  | first :: rest =>
    some { policy with
      rulesByProgram := policy.rulesByProgram.push first (.literal first rest decision) }

variable [DecidableEq AbsolutePath]

section

variable (paths : ProgramPaths AbsolutePath)

section

variable (policy : Policy AbsolutePath)

def checkMultipleWithOptions
    (commands : List (List String)) (heuristicsFallback : List String → Decision)
    (options : MatchOptions) : Option (Evaluation AbsolutePath) :=
  Evaluation.fromMatches (commands.flatMap fun command =>
    policy.matchesForCommandWithOptions paths command (some heuristicsFallback) options)

def alreadyAllowed (command : List String) : Bool :=
  (policy.checkMultipleWithOptions paths [command] (fun _ => .forbidden) ⟨true⟩).any
    fun existingEvaluation =>
      decide (existingEvaluation.decision = .allow) &&
        existingEvaluation.matchedRules.any fun ruleMatch =>
          ruleMatch.isPolicyMatch && decide (ruleMatch.decision = .allow)

/-- The policy in memory after the rule has been appended to the rules file. -/
def appendAmendmentAndUpdate (command : List String) : Option (Policy AbsolutePath) :=
  if policy.alreadyAllowed paths command then some policy
  else policy.addPrefixRule command .allow

/-- The decision with host executable resolution. -/
def decides (cmd : List String) (fallback : List String → Decision) : Option Decision :=
  (policy.checkWithOptions paths cmd fallback ⟨true⟩).map Evaluation.decision

end

end

end Policy

theorem all_zip_single (rest arguments : List String) (long : rest.length ≤ arguments.length) :
    ((rest.map PatternToken.single).zip arguments).all
    (fun (token, argument) => token.matches argument) = true ↔ rest <+: arguments := by
  induction rest generalizing arguments with
  | nil => simp
  | cons token rest ih =>
    cases arguments with
    | nil => exact absurd long (by simp)
    | cons argument arguments =>
      rw [map_cons, zip_cons_cons, all_cons, Bool.and_eq_true,
        ih arguments (Nat.le_of_succ_le_succ long), cons_prefix_cons]
      simp [PatternToken.matches]

theorem literal_matches_isSome {AbsolutePath : Type} {first : String} {rest : List String}
    {decision : Decision} {cmd : List String} :
    ((PrefixRule.literal first rest decision).matches cmd :
    Option (RuleMatch AbsolutePath)).isSome = true ↔ first :: rest <+: cmd := by
  unfold PrefixRule.matches
  rw [isSome_map]
  cases cmd with
  | nil => simp [PrefixPattern.matchesPrefix]
  | cons prog args =>
    unfold PrefixPattern.matchesPrefix
    simp only [PrefixRule.literal, length_map]
    rw [cons_prefix_cons]
    split
    next refused =>
      refine iff_of_false (by simp) ?_
      rintro ⟨same, isPrefix⟩
      rcases refused with short | ne
      · exact absurd isPrefix.length_le (Nat.not_le.mpr short)
      · exact ne same.symm
    next isOk =>
      rw [not_or, not_not, Nat.not_lt] at isOk
      rw [← all_zip_single rest args isOk.1]
      split
      next agrees =>
        simp only [isSome_some, true_iff]
        exact ⟨isOk.2.symm, agrees⟩
      next differs =>
        simp only [isSome_none, Bool.false_eq_true, false_iff]
        exact fun both => differs both.2

theorem zip_append_of_le {α β : Type} (tokens : List α) (arguments more : List β)
    (long : tokens.length ≤ arguments.length) :
    tokens.zip (arguments ++ more) = tokens.zip arguments := by
  induction tokens generalizing arguments with
  | nil => rfl
  | cons token tokens ih =>
    cases arguments with
    | nil => exact absurd long (by simp)
    | cons argument arguments =>
      rw [cons_append, zip_cons_cons, zip_cons_cons, ih arguments (Nat.le_of_succ_le_succ long)]

variable {AbsolutePath : Type}

theorem matches_append (rule : PrefixRule) (cmd more : List String)
    (fits : (rule.matches cmd : Option (RuleMatch AbsolutePath)).isSome = true) :
    (rule.matches (cmd ++ more) : Option (RuleMatch AbsolutePath)).isSome = true := by
  unfold PrefixRule.matches at fits ⊢
  rw [isSome_map] at fits ⊢
  cases cmd with
  | nil => simp [PrefixPattern.matchesPrefix] at fits
  | cons prog args =>
    unfold PrefixPattern.matchesPrefix at fits ⊢
    simp only [cons_append] at fits ⊢
    split at fits
    · cases fits
    next isOk =>
      rw [not_or, Nat.not_lt] at isOk
      rw [if_neg]
      · split at fits
        next agrees =>
          rw [zip_append_of_le _ _ more isOk.1, if_pos agrees]
          rfl
        · cases fits
      · rw [not_or, Nat.not_lt, length_append]
        exact ⟨Nat.le_add_right_of_le isOk.1, isOk.2⟩

namespace Policy

variable {AbsolutePath : Type}

def reloaded (policy : Policy AbsolutePath) (first : String) (rest : List String) :
    Policy AbsolutePath :=
  { policy with rulesByProgram := policy.rulesByProgram.push first (.literal first rest .allow) }

def addedMatch (first : String) (rest cmd : List String) : List (RuleMatch AbsolutePath) :=
  ((PrefixRule.literal first rest .allow).matches cmd).toList

variable (first : String) (rest cmd : List String)

theorem addedMatch_decision
    (found : RuleMatch AbsolutePath) (mem : found ∈ addedMatch first rest cmd) :
    found.decision = .allow := by
  rw [addedMatch, mem_toList] at mem
  obtain ⟨matchedPrefix, _, rfl⟩ := map_eq_some_iff.mp mem
  rfl

variable {first rest cmd} in
theorem addedMatch_eq_nil_iff : (addedMatch first rest cmd : List (RuleMatch AbsolutePath)) = [] ↔
    ¬first :: rest <+: cmd := by
  rw [addedMatch, toList_eq_nil_iff, ← literal_matches_isSome, not_isSome_iff_eq_none]

variable (policy : Policy AbsolutePath)

theorem exactMatches_reloaded (first : String) (rest cmd : List String) :
    (policy.reloaded first rest).exactMatches cmd =
    policy.exactMatches cmd ++ addedMatch first rest cmd := by
  cases cmd with
  | nil =>
    rw [addedMatch_eq_nil_iff.mpr (by simp), append_nil]
    rfl
  | cons prog args =>
    rw [exactMatches_cons, exactMatches_cons]
    unfold reloaded
    rw [RulesByProgram.rulesFor_push, filterMap_append]
    by_cases same : prog = first
    · rw [if_pos same]
      congr 1
    · rw [if_neg same, addedMatch_eq_nil_iff.mpr, filterMap_nil]
      intro isPrefix
      exact same (cons_prefix_cons.mp isPrefix).1.symm

theorem basenameMatches_reloaded (first : String)
    (rest cmd : List String) (basename : String) (prog : AbsolutePath) :
    (policy.reloaded first rest).basenameMatches basename prog cmd =
    policy.basenameMatches basename prog cmd ++
    (addedMatch first rest (basename :: cmd.tail)).map (.withResolvedProgram prog) := by
  have exact := exactMatches_reloaded policy first rest (basename :: cmd.tail)
  rw [exactMatches_cons, exactMatches_cons] at exact
  unfold basenameMatches
  rw [exact, map_append]

variable [DecidableEq AbsolutePath]

theorem decides_eq (paths : ProgramPaths AbsolutePath) (policy : Policy AbsolutePath)
    (cmd : List String) (fallback : List String → Decision) : policy.decides paths cmd fallback =
    ((policy.matchesForCommandWithOptions paths cmd (some fallback) ⟨true⟩).map
    RuleMatch.decision).max? := by
  unfold decides checkWithOptions Evaluation.fromMatches
  rw [Option.map_map]
  exact Option.map_id'

end Policy

theorem max?_append_allow (found added : List (RuleMatch AbsolutePath))
    (ne : found ≠ []) (allows : ∀ other ∈ added, other.decision = .allow) :
    ((found ++ added).map RuleMatch.decision).max? = (found.map RuleMatch.decision).max? := by
  cases strictest : (found.map RuleMatch.decision).max? with
  | none =>
    rw [max?_eq_none_iff, map_eq_nil_iff] at strictest
    exact absurd strictest ne
  | some decision =>
    obtain ⟨mem, above⟩ := max?_eq_some_iff.mp strictest
    refine max?_eq_some_iff.mpr ⟨?_, ?_⟩
    · rw [map_append]
      exact mem_append_left _ mem
    · intro other inBoth
      rw [map_append, mem_append] at inBoth
      rcases inBoth with inFound | inAdded
      · exact above other inFound
      · obtain ⟨ruleMatch, isAdded, rfl⟩ := mem_map.mp inAdded
        rw [allows ruleMatch isAdded]
        exact Nat.zero_le _

theorem max?_eq_allow_iff (found : List (RuleMatch AbsolutePath)) (ne : found ≠ []) :
    (found.map RuleMatch.decision).max? = some .allow ↔
    ∀ ruleMatch ∈ found, ruleMatch.decision = .allow := by
  rw [max?_eq_some_iff]
  constructor
  · rintro ⟨_, above⟩ ruleMatch mem
    exact le_antisymm (above _ (mem_map_of_mem mem)) (Nat.zero_le _)
  · intro allows
    obtain ⟨ruleMatch, mem⟩ := exists_mem_of_ne_nil found ne
    refine ⟨mem_map.mpr ⟨ruleMatch, mem, allows ruleMatch mem⟩, ?_⟩
    intro other inDecisions
    obtain ⟨found, isFound, rfl⟩ := mem_map.mp inDecisions
    rw [allows found isFound]

namespace Policy

variable {AbsolutePath : Type} [DecidableEq AbsolutePath] {paths : ProgramPaths AbsolutePath}
  {policy : Policy AbsolutePath} {first : String} {rest cmd : List String}

/-- The rule changes nothing for a command that matches no rule under its exact program: if it
begins with the rule, the rules for its base name allow it, and if its base name is the rule's
program, one of them matches it. -/
structure Redundant (paths : ProgramPaths AbsolutePath) (policy : Policy AbsolutePath)
    (first : String) (rest : List String) : Prop where
  extending : ∀ cmd, policy.exactMatches cmd = [] → first :: rest <+: cmd →
    ∀ found ∈ policy.matchHostExecutableRules paths cmd, found.decision = .allow
  named : ∀ cmd program, policy.exactMatches cmd = [] →
    hostExecutable paths cmd = some (first, program) →
      tableAdmits policy.hostExecutablesByName first program → rest <+: cmd.tail →
        policy.basenameMatches first program cmd ≠ []

theorem matchHost_reloaded_of_named (rest : List String) {prog : AbsolutePath}
    (isHost : hostExecutable paths cmd = some (first, prog))
    (taken : tableAdmits policy.hostExecutablesByName first prog) :
    (policy.reloaded first rest).matchHostExecutableRules paths cmd =
    policy.matchHostExecutableRules paths cmd ++
    (addedMatch first rest (first :: cmd.tail)).map (.withResolvedProgram prog) := by
  rw [matchHostExecutableRules_eq, matchHostExecutableRules_eq, isHost]
  simp only
  rw [if_pos taken, ← basenameMatches_reloaded]
  exact if_pos taken

theorem matchHost_reloaded (paths : ProgramPaths AbsolutePath) (policy : Policy AbsolutePath)
    (first : String) (rest cmd : List String) :
    (policy.reloaded first rest).matchHostExecutableRules paths cmd =
    policy.matchHostExecutableRules paths cmd ∨
    ∃ prog, hostExecutable paths cmd = some (first, prog) ∧
    tableAdmits policy.hostExecutablesByName first prog ∧ rest <+: cmd.tail := by
  cases host : hostExecutable paths cmd with
  | none =>
    rw [matchHostExecutableRules_eq, matchHostExecutableRules_eq, host]
    exact .inl rfl
  | some named =>
    obtain ⟨basename, prog⟩ := named
    by_cases added : (addedMatch first rest (basename :: cmd.tail) :
      List (RuleMatch AbsolutePath)) = []
    · refine .inl ?_
      rw [matchHostExecutableRules_eq, matchHostExecutableRules_eq, host]
      simp only
      rw [basenameMatches_reloaded, added, map_nil, append_nil]
      rfl
    · rw [addedMatch_eq_nil_iff, not_not, cons_prefix_cons] at added
      obtain ⟨rfl, isPrefix⟩ := added
      by_cases taken : tableAdmits policy.hostExecutablesByName first prog
      · exact .inr ⟨prog, rfl, taken, isPrefix⟩
      · refine .inl ?_
        rw [matchHostExecutableRules_eq, matchHostExecutableRules_eq, host]
        simp only
        rw [if_neg taken]
        exact if_neg taken

omit [DecidableEq AbsolutePath] in
theorem exactMatches_ne_nil_of_extends {short : List String} (isPrefix : short <+: cmd)
    (found : policy.exactMatches short ≠ []) : policy.exactMatches cmd ≠ [] := by
  obtain ⟨more, rfl⟩ := isPrefix
  cases short with
  | nil => exact absurd rfl found
  | cons prog args =>
    obtain ⟨ruleMatch, mem⟩ := exists_mem_of_ne_nil _ found
    rw [exactMatches_cons] at mem
    obtain ⟨rule, isRule, fits⟩ := mem_filterMap.mp mem
    have longer := matches_append rule (prog :: args) more
      (isSome_iff_exists.mpr ⟨ruleMatch, fits⟩)
    obtain ⟨other, isOther⟩ := isSome_iff_exists.mp longer
    exact ne_nil_of_mem (mem_filterMap.mpr ⟨rule, isRule, isOther⟩)

theorem matchHost_ne_nil_of_extends {short : List String} (isPrefix : short <+: cmd)
    (found : policy.matchHostExecutableRules paths short ≠ []) :
    policy.matchHostExecutableRules paths cmd ≠ [] := by
  obtain ⟨more, rfl⟩ := isPrefix
  cases short with
  | nil => exact absurd rfl found
  | cons token args =>
    obtain ⟨ruleMatch, mem⟩ := exists_mem_of_ne_nil _ found
    obtain ⟨basename, prog, host, taken, inMatches⟩ :=
      mem_matchHostExecutableRules.mp mem
    unfold basenameMatches at inMatches
    obtain ⟨plain, isPlain, rfl⟩ := mem_map.mp inMatches
    obtain ⟨rule, isRule, fits⟩ := mem_filterMap.mp isPlain
    have longer := matches_append rule (basename :: args) more
      (isSome_iff_exists.mpr ⟨plain, fits⟩)
    obtain ⟨other, isOther⟩ := isSome_iff_exists.mp longer
    exact ne_nil_of_mem (mem_matchHostExecutableRules.mpr ⟨basename, prog, host, taken,
      mem_map_of_mem (mem_filterMap.mpr ⟨rule, isRule, isOther⟩)⟩)

theorem found_of_alreadyAllowed (may : policy.alreadyAllowed paths cmd = true) :
    policy.exactMatches cmd ≠ [] ∨ policy.matchHostExecutableRules paths cmd ≠ [] := by
  by_contra nothing
  rw [not_or, not_not, not_not] at nothing
  have onlyFallback := matches_of_no_exactMatches paths (some fun _ => Decision.forbidden) nothing.1
  rw [if_pos nothing.2] at onlyFallback
  unfold alreadyAllowed checkMultipleWithOptions at may
  rw [flatMap_singleton, onlyFallback] at may
  cases may

theorem decides_of_no_exact (noExact : policy.exactMatches cmd = [])
    (fallback : List String → Decision) : policy.decides paths cmd fallback =
      if policy.matchHostExecutableRules paths cmd = [] then some (fallback cmd)
      else ((policy.matchHostExecutableRules paths cmd).map RuleMatch.decision).max? := by
  rw [decides_eq, matches_of_no_exactMatches paths (some fallback) noExact]
  split
  · rfl
  · rfl

theorem decides_of_exact (exact : policy.exactMatches cmd ≠ [])
    (fallback : List String → Decision) : policy.decides paths cmd fallback =
    ((policy.exactMatches cmd).map RuleMatch.decision).max? := by
  rw [decides_eq, matches_of_exactMatches exact]

/-- A command that begins with the rule and matches no other exact rule is allowed by it. -/
theorem decides_reloaded_of_extends (noExact : policy.exactMatches cmd = [])
    (isPrefix : first :: rest <+: cmd) (fallback : List String → Decision) :
    (policy.reloaded first rest).decides paths cmd fallback = some .allow := by
  have isAdded := exactMatches_reloaded policy first rest cmd
  rw [noExact, nil_append] at isAdded
  have ne : (addedMatch first rest cmd : List (RuleMatch AbsolutePath)) ≠ [] :=
    fun empty => addedMatch_eq_nil_iff.mp empty isPrefix
  rw [decides_of_exact (by rw [isAdded]; exact ne), isAdded,
    max?_eq_allow_iff _ ne]
  exact addedMatch_decision first rest cmd

theorem sameDecision_of_redundant (may : policy.alreadyAllowed paths (first :: rest) = true)
    (redundant : policy.Redundant paths first rest) (cmd : List String)
    (fallback : List String → Decision) : policy.decides paths cmd fallback =
    (policy.reloaded first rest).decides paths cmd fallback := by
  have exactReloaded := exactMatches_reloaded policy first rest cmd
  by_cases noExact : policy.exactMatches cmd = []
  · by_cases isPrefix : first :: rest <+: cmd
    · have hostFound : policy.matchHostExecutableRules paths cmd ≠ [] := by
        rcases found_of_alreadyAllowed may with exact | host
        · exact absurd noExact (exactMatches_ne_nil_of_extends isPrefix exact)
        · exact matchHost_ne_nil_of_extends isPrefix host
      rw [decides_reloaded_of_extends noExact isPrefix, decides_of_no_exact noExact,
        if_neg hostFound, max?_eq_allow_iff _ hostFound]
      exact redundant.extending cmd noExact isPrefix
    · rw [noExact, addedMatch_eq_nil_iff.mpr isPrefix, append_nil] at exactReloaded
      rw [decides_of_no_exact noExact, decides_of_no_exact exactReloaded]
      rcases matchHost_reloaded paths policy first rest cmd with
        same | ⟨prog, host, taken, restPrefix⟩
      · rw [same]
      · have found : policy.matchHostExecutableRules paths cmd ≠ [] := by
          rw [matchHostExecutableRules_eq, host]
          simp only
          rw [if_pos taken]
          exact redundant.named cmd prog noExact host taken restPrefix
        have longer := matchHost_reloaded_of_named rest host taken
        rw [longer, if_neg found, if_neg (by simp [found]), max?_append_allow _ _ found]
        intro other inAdded
        obtain ⟨plain, isPlain, rfl⟩ := mem_map.mp inAdded
        have allows := addedMatch_decision first rest _ plain isPlain
        cases plain <;> exact allows
  · have exactFound : (policy.reloaded first rest).exactMatches cmd ≠ [] := by
      rw [exactReloaded]
      simp [noExact]
    rw [decides_of_exact noExact, decides_of_exact exactFound, exactReloaded,
      max?_append_allow _ _ noExact (addedMatch_decision first rest cmd)]

theorem redundant_of_sameDecision (same : ∀ cmd fallback, policy.decides paths cmd fallback =
    (policy.reloaded first rest).decides paths cmd fallback) :
    policy.Redundant paths first rest where
  extending := by
    intro cmd noExact isPrefix found mem
    have allows := same cmd fun _ => .forbidden
    have ne := ne_nil_of_mem mem
    rw [decides_reloaded_of_extends noExact isPrefix, decides_of_no_exact noExact,
      if_neg ne, max?_eq_allow_iff _ ne] at allows
    exact allows found mem
  named := by
    intro cmd prog noExact host taken restPrefix nothing
    have differs := same cmd fun _ => .forbidden
    have noHost : policy.matchHostExecutableRules paths cmd = [] := by
      rw [matchHostExecutableRules_eq, host]
      simp only
      rw [if_pos taken, nothing]
    rw [decides_of_no_exact noExact, if_pos noHost] at differs
    by_cases isPrefix : first :: rest <+: cmd
    · rw [decides_reloaded_of_extends noExact isPrefix] at differs
      cases differs
    · have exactReloaded := exactMatches_reloaded policy first rest cmd
      rw [noExact, addedMatch_eq_nil_iff.mpr isPrefix, append_nil] at exactReloaded
      have longer := matchHost_reloaded_of_named rest host taken
      rw [noHost, nil_append] at longer
      have ne : (addedMatch first rest (first :: cmd.tail) :
        List (RuleMatch AbsolutePath)) ≠ [] := fun empty =>
        addedMatch_eq_nil_iff.mp empty (cons_prefix_cons.mpr ⟨rfl, restPrefix⟩)
      rw [decides_of_no_exact exactReloaded, longer, if_neg (by simp [ne])] at differs
      have allows := (max?_eq_allow_iff
        ((addedMatch first rest (first :: cmd.tail)).map (RuleMatch.withResolvedProgram prog))
        (by simp [ne])).mpr (by
          intro other inAdded
          obtain ⟨plain, isPlain, rfl⟩ := mem_map.mp inAdded
          have isAllow := addedMatch_decision first rest _ plain isPlain
          cases plain <;> exact isAllow)
      rw [allows] at differs
      cases differs

/-- The amended policy decides as the reloaded one exactly if the rule is redundant where it was
left out. -/
theorem amendment_sameDecisions_iff (paths : ProgramPaths AbsolutePath)
    (policy : Policy AbsolutePath) (first : String) (rest : List String) :
    (∀ updated added, policy.appendAmendmentAndUpdate paths (first :: rest) = some updated →
      policy.addPrefixRule (first :: rest) .allow = some added →
        ∀ cmd fallback, updated.decides paths cmd fallback = added.decides paths cmd fallback) ↔
      (policy.alreadyAllowed paths (first :: rest) = true → policy.Redundant paths first rest) := by
  have isAdded : policy.addPrefixRule (first :: rest) .allow =
    some (policy.reloaded first rest) := rfl
  unfold appendAmendmentAndUpdate
  rw [isAdded]
  by_cases allowed : policy.alreadyAllowed paths (first :: rest) = true
  · rw [if_pos allowed]
    constructor
    · intro same _
      exact redundant_of_sameDecision (same policy _ rfl rfl)
    · intro redundant updated added isUpdated isReloaded
      cases isUpdated
      cases isReloaded
      exact sameDecision_of_redundant allowed (redundant allowed)
  · rw [if_neg allowed]
    refine iff_of_true ?_ fun isAllowed => absurd isAllowed allowed
    intro updated added isUpdated isReloaded cmd fallback
    cases isUpdated
    cases isReloaded
    rfl

def subcommandPolicy : Policy String :=
  ⟨AList.singleton "git"
    [⟨⟨"git", []⟩, .allow, none⟩, ⟨⟨"git", [.single "push"]⟩, .forbidden, none⟩], [], ∅⟩

/-- The forbidden subcommand of an approved program is allowed after a restart. -/
theorem amendment_allows_subcommand_after_restart :
    ∃ updated added,
      subcommandPolicy.appendAmendmentAndUpdate posixPaths ["/usr/bin/git"] = some updated ∧
      subcommandPolicy.addPrefixRule ["/usr/bin/git"] .allow = some added ∧
      updated.decides posixPaths ["/usr/bin/git", "push"] (fun _ => .prompt) =
        some .forbidden ∧
      added.decides posixPaths ["/usr/bin/git", "push"] (fun _ => .prompt) = some .allow :=
  ⟨_, _, rfl, rfl, by decide, by decide⟩

end Policy

end CodexFormal.ExecPolicy
