import CodexFormal.ExecPolicy.Policy

/-!
# Requirements merged over a policy

The merged policy has the rules of both parts under every program, and the host
executable table of the overlay where it has one.  A rule of the overlay for a
base name can still stop to apply: the other part may have a rule for the exact
program, which ends the search, or a table that does not list the program.
-/

set_option autoImplicit false

namespace CodexFormal.ExecPolicy

open Foundation List Option

namespace RulesByProgram

def rulesFor (rules : RulesByProgram) (program : String) : List PrefixRule :=
  (rules.lookup program).getD []

variable (rules : RulesByProgram)

theorem rulesFor_push (program other : String) (rule : PrefixRule) :
    (rules.push program rule).rulesFor other =
    rules.rulesFor other ++ if other = program then [rule] else [] := by
  unfold rulesFor push
  rw [FiniteMap.lookup_insert_eq_ite]
  by_cases same : other = program
  · rw [if_pos same, if_pos same, same]
    rfl
  · rw [if_neg same, if_neg same, append_nil]

theorem rulesFor_pushAll (program other : String) (added : List PrefixRule) :
    (added.foldl (fun combined rule => combined.push program rule) rules).rulesFor other =
    rules.rulesFor other ++ if other = program then added else [] := by
  induction added generalizing rules with
  | nil => simp
  | cons rule rest ih =>
    rw [foldl_cons, ih, rulesFor_push]
    by_cases same : other = program
    · simp [same]
    · simp [same]

theorem rulesFor_pushEntries (program : String)
    (entries : List (Sigma fun _ : String => List PrefixRule)) (uniq : entries.NodupKeys) :
    (entries.foldl (fun combined entry =>
    entry.2.foldl (fun combined rule => combined.push entry.1 rule) combined)
    rules).rulesFor program = rules.rulesFor program ++ (entries.dlookup program).getD [] := by
  induction entries generalizing rules with
  | nil => simp
  | cons entry rest ih =>
    obtain ⟨name, added⟩ := entry
    obtain ⟨fresh, distinctRest⟩ := nodupKeys_cons.mp uniq
    rw [foldl_cons, ih _ distinctRest, rulesFor_pushAll]
    by_cases same : program = name
    · subst name
      rw [dlookup_eq_none.mpr fresh, dlookup_cons_eq]
      simp
    · rw [dlookup_cons_ne _ _ same, if_neg same, append_nil]

end RulesByProgram

namespace Policy

variable {AbsolutePath : Type}
  (order : FiniteMap.Arrangement (Sigma fun _ : String => List PrefixRule))
  (policy overlay : Policy AbsolutePath)

theorem rulesFor_mergeOverlay (program : String) :
    (policy.mergeOverlay order overlay).rulesByProgram.rulesFor program =
    policy.rulesByProgram.rulesFor program ++ overlay.rulesByProgram.rulesFor program := by
  have arranged := order.perm overlay.rulesByProgram.entries
  have uniq := (perm_nodupKeys arranged).mpr overlay.rulesByProgram.nodupKeys
  have found := perm_dlookup program uniq arranged
  refine (RulesByProgram.rulesFor_pushEntries policy.rulesByProgram program _ uniq).trans ?_
  rw [found]
  rfl

variable (basename : String)

theorem lookup_hostExecutables_mergeOverlay :
    (policy.mergeOverlay order overlay).hostExecutablesByName.lookup basename =
    ((overlay.hostExecutablesByName.lookup basename).or
    (policy.hostExecutablesByName.lookup basename)) := by
  by_cases listed : basename ∈ overlay.hostExecutablesByName
  · obtain ⟨paths, found⟩ := isSome_iff_exists.mp (AList.lookup_isSome.mpr listed)
    rw [found, some_or]
    exact (AList.lookup_union_left listed).trans found
  · rw [AList.lookup_eq_none.mpr listed, none_or]
    exact AList.lookup_union_right listed

def exactMatches (policy : Policy AbsolutePath) (cmd : List String) :
    List (RuleMatch AbsolutePath) :=
  (policy.matchExactRules cmd).getD []

theorem exactMatches_cons (policy : Policy AbsolutePath) (first : String)
    (args : List String) : policy.exactMatches (first :: args) =
      (policy.rulesByProgram.rulesFor first).filterMap (·.matches (first :: args)) := rfl

variable (cmd : List String)

theorem exactMatches_mergeOverlay : (policy.mergeOverlay order overlay).exactMatches cmd =
    policy.exactMatches cmd ++ overlay.exactMatches cmd := by
  cases cmd with
  | nil => rfl
  | cons first args =>
    rw [exactMatches_cons, exactMatches_cons, exactMatches_cons, rulesFor_mergeOverlay,
      filterMap_append]

/-- The base name under which the program of a command is looked up, and the program. -/
def hostExecutable (paths : ProgramPaths AbsolutePath) (cmd : List String) :
    Option (String × AbsolutePath) := do
  let first ← cmd.head?
  let program ← paths.absolutePath first
  let basename ← paths.executablePathLookupKey program
  return (basename, program)

/-- The table lists the program or says nothing about its base name. -/
def tableAdmits (table : FiniteMap String (List AbsolutePath)) (basename : String)
    (program : AbsolutePath) : Prop :=
  ∀ listed ∈ table.lookup basename, program ∈ listed

instance [DecidableEq AbsolutePath] (table : FiniteMap String (List AbsolutePath))
    (basename : String) (program : AbsolutePath) : Decidable (tableAdmits table basename program) :=
  inferInstanceAs (Decidable (∀ listed ∈ table.lookup basename, program ∈ listed))

def basenameMatches (policy : Policy AbsolutePath) (basename : String) (program : AbsolutePath)
    (cmd : List String) : List (RuleMatch AbsolutePath) :=
  ((policy.rulesByProgram.rulesFor basename).filterMap (·.matches (basename :: cmd.tail))).map
    (RuleMatch.withResolvedProgram program)

variable (program : AbsolutePath)

theorem basenameMatches_mergeOverlay (cmd : List String) :
    (policy.mergeOverlay order overlay).basenameMatches basename program cmd =
    policy.basenameMatches basename program cmd ++
    overlay.basenameMatches basename program cmd := by
  unfold basenameMatches
  rw [rulesFor_mergeOverlay, filterMap_append, map_append]

variable (user requirements : Policy AbsolutePath)

theorem tableAdmits_mergeOverlay (basename : String) (program : AbsolutePath)
    (taken : tableAdmits requirements.hostExecutablesByName basename program) :
    tableAdmits (user.mergeOverlay order requirements).hostExecutablesByName basename program ↔
    (requirements.hostExecutablesByName.lookup basename).isSome ∨
    tableAdmits user.hostExecutablesByName basename program := by
  unfold tableAdmits at taken ⊢
  rw [lookup_hostExecutables_mergeOverlay]
  cases table : requirements.hostExecutablesByName.lookup basename with
  | none => simp
  | some listed =>
    rw [table] at taken
    simpa using taken

variable [DecidableEq AbsolutePath]

theorem any_not_contains_iff (table : FiniteMap String (List AbsolutePath)) (basename : String)
    (program : AbsolutePath) :
    (table.lookup basename).any (fun listed => !listed.contains program) = true ↔
    ¬ tableAdmits table basename program := by
  unfold tableAdmits
  cases table.lookup basename with
  | _ => simp

variable (paths : ProgramPaths AbsolutePath)

theorem matchHostExecutableRules_eq (policy : Policy AbsolutePath) (cmd : List String) :
    policy.matchHostExecutableRules paths cmd = match hostExecutable paths cmd with
      | none => []
      | some (basename, program) =>
        if tableAdmits policy.hostExecutablesByName basename program then
          policy.basenameMatches basename program cmd else [] := by
  cases cmd with
  | nil => rfl
  | cons first args =>
    cases abs : paths.absolutePath first with
    | none => simp [matchHostExecutableRules, hostExecutable, abs]
    | some program =>
      cases named : paths.executablePathLookupKey program with
      | none => simp [matchHostExecutableRules, hostExecutable, abs, named]
      | some basename =>
        cases found : policy.rulesByProgram.lookup basename with
        | none =>
          simp [matchHostExecutableRules, hostExecutable, abs, named, found,
            basenameMatches, RulesByProgram.rulesFor]
        | some rules =>
          simp only [matchHostExecutableRules, hostExecutable, abs, named, found,
            basenameMatches, RulesByProgram.rulesFor, any_not_contains_iff,
            head?_cons, Option.bind_eq_bind, Option.bind_some, Option.pure_def,
            tail_cons, Option.getD_some, ite_not]

theorem matches_ne_nil (policy : Policy AbsolutePath)
    (cmd : List String) (fallback : List String → Decision) (options : MatchOptions) :
    policy.matchesForCommandWithOptions paths cmd (some fallback) options ≠ [] := by
  have kept : ∀ matchedRules : List (RuleMatch AbsolutePath),
      (if matchedRules = [] then [.heuristicsRuleMatch cmd (fallback cmd)] else matchedRules) ≠
        [] := by
    intro matchedRules
    split
    · exact cons_ne_nil _ _
    · assumption
  exact kept _

theorem enforced_iff (policy : Policy AbsolutePath)
    (cmd : List String) (fallback : List String → Decision) (options : MatchOptions)
    (required : Decision) : (∃ evaluation ∈ policy.checkWithOptions paths cmd fallback options,
    required ≤ evaluation.decision) ↔
    ∃ found ∈ policy.matchesForCommandWithOptions paths cmd (some fallback) options,
    required ≤ found.decision := by
  have isAt := matches_ne_nil paths policy cmd fallback options
  unfold checkWithOptions Evaluation.fromMatches
  generalize policy.matchesForCommandWithOptions paths cmd (some fallback) options = found at isAt
  cases strictest : (found.map RuleMatch.decision).max? with
  | none => simp only [max?_eq_none_iff, map_eq_nil_iff] at strictest; contradiction
  | some decision =>
    obtain ⟨mem, above⟩ := max?_eq_some_iff.mp strictest
    simp only [map_some, mem_def, Option.some.injEq, exists_eq_left']
    constructor
    · intro enforced
      obtain ⟨rule, here, rfl⟩ := mem_map.mp mem
      exact ⟨rule, here, enforced⟩
    · rintro ⟨rule, here, enforced⟩
      exact enforced.trans (above _ (mem_map_of_mem here))

/-- What the exact rules of the user, the host executable tables and the fallback must meet for a
base name rule of the requirements to be enforced. -/
def EnforcesBasenameRule (paths : ProgramPaths AbsolutePath)
    (user requirements : Policy AbsolutePath) (cmd : List String)
    (fallback : List String → Decision) (required : Decision) : Prop :=
  if user.exactMatches cmd = [] then
    required ≤ fallback cmd ∨
      ∀ host ∈ hostExecutable paths cmd,
        (requirements.hostExecutablesByName.lookup host.1).isSome ∨
          tableAdmits user.hostExecutablesByName host.1 host.2
  else ∃ found ∈ user.exactMatches cmd, required ≤ found.decision

instance (paths : ProgramPaths AbsolutePath) (user requirements : Policy AbsolutePath)
    (cmd : List String) (fallback : List String → Decision) (required : Decision) :
    Decidable (EnforcesBasenameRule paths user requirements cmd fallback required) :=
  inferInstanceAs (Decidable (ite _ _ _))

variable {paths} in
theorem matches_of_exactMatches {policy : Policy AbsolutePath} {cmd : List String}
    {heuristics : Option (List String → Decision)} {options : MatchOptions}
    (exact : policy.exactMatches cmd ≠ []) :
    policy.matchesForCommandWithOptions paths cmd heuristics options = policy.exactMatches cmd := by
  unfold exactMatches at exact
  unfold matchesForCommandWithOptions exactMatches
  cases heuristics with
  | _ => simp [if_neg exact]

theorem matches_of_no_exactMatches {policy : Policy AbsolutePath} {cmd : List String}
    (heuristics : Option (List String → Decision)) (noExact : policy.exactMatches cmd = []) :
    policy.matchesForCommandWithOptions paths cmd heuristics ⟨true⟩ =
      if policy.matchHostExecutableRules paths cmd = [] then
        heuristics.toList.map fun fallback => .heuristicsRuleMatch cmd (fallback cmd)
      else policy.matchHostExecutableRules paths cmd := by
  unfold exactMatches at noExact
  unfold matchesForCommandWithOptions
  cases heuristics with
  | none =>
    simp only [if_pos noExact, if_true, toList_none, map_nil]
    split
    · assumption
    · rfl
  | some fallback =>
    simp [if_pos noExact]

variable {paths} in
theorem mem_matchHostExecutableRules
    {policy : Policy AbsolutePath} {cmd : List String} {found : RuleMatch AbsolutePath} :
    found ∈ policy.matchHostExecutableRules paths cmd ↔
    ∃ basename program, hostExecutable paths cmd = some (basename, program) ∧
    tableAdmits policy.hostExecutablesByName basename program ∧
    found ∈ policy.basenameMatches basename program cmd := by
  rw [matchHostExecutableRules_eq]
  cases host : hostExecutable paths cmd with
  | none => simp
  | some named =>
    obtain ⟨basename, program⟩ := named
    dsimp only
    split
    next taken =>
      constructor
      · intro mem
        exact ⟨basename, program, rfl, taken, mem⟩
      · rintro ⟨other, same, equal, _, mem⟩
        cases equal
        exact mem
    next refused =>
      constructor
      · intro mem
        cases mem
      · rintro ⟨other, same, equal, taken, _⟩
        cases equal
        exact absurd taken refused

theorem enforced_iff_enforcesBasenameRule
    (order : FiniteMap.Arrangement (Sigma fun _ : String => List PrefixRule))
    (user requirements : Policy AbsolutePath) (cmd : List String)
    (fallback : List String → Decision) (required : RuleMatch AbsolutePath)
    (noExact : requirements.exactMatches cmd = [])
    (mem : required ∈ requirements.matchHostExecutableRules paths cmd) :
    (∃ found ∈ (user.mergeOverlay order requirements).matchesForCommandWithOptions paths cmd
    (some fallback) ⟨true⟩, required.decision ≤ found.decision) ↔
    EnforcesBasenameRule paths user requirements cmd fallback required.decision := by
  have merged := exactMatches_mergeOverlay order user requirements cmd
  rw [noExact, append_nil] at merged
  unfold EnforcesBasenameRule
  by_cases noUserExact : user.exactMatches cmd = []
  · obtain ⟨basename, program, host, taken, here⟩ :=
      mem_matchHostExecutableRules.mp mem
    rw [if_pos noUserExact, matches_of_no_exactMatches paths _ (merged.trans noUserExact),
      matchHostExecutableRules_eq, host]
    have sameTable := tableAdmits_mergeOverlay order user requirements basename program taken
    have kept : required ∈
        (user.mergeOverlay order requirements).basenameMatches basename program cmd := by
      rw [basenameMatches_mergeOverlay]
      exact mem_append_right _ here
    by_cases listed :
      tableAdmits (user.mergeOverlay order requirements).hostExecutablesByName basename program
    · -- the base name rules of both parts are in force
      simp only [if_pos listed, if_neg (ne_nil_of_mem kept)]
      refine iff_of_true ⟨required, kept, le_refl _⟩ (.inr ?_)
      rintro _ ⟨⟩
      exact sameTable.mp listed
    · -- the table of the user hides the rule, so that the fallback decides
      simp only [if_neg listed, if_true, toList_some, map_cons, map_nil,
        mem_singleton, exists_eq_left]
      constructor
      · exact .inl
      · rintro (strict | tables)
        · exact strict
        · exact absurd (sameTable.mpr (tables (basename, program) rfl)) listed
  · rw [if_neg noUserExact, matches_of_exactMatches (by rwa [merged]), merged]

/-- The requirements are enforced exactly if they decide by an exact rule, or if nothing of the
user stands in the way of their base name rules. -/
theorem requirements_enforced_iff (paths : ProgramPaths AbsolutePath)
    (order : FiniteMap.Arrangement (Sigma fun _ : String => List PrefixRule))
    (user requirements : Policy AbsolutePath) (cmd : List String)
    (fallback : List String → Decision) :
    (∀ required ∈ requirements.matchesForCommandWithOptions paths cmd none ⟨true⟩,
        ∃ evaluation ∈ (user.mergeOverlay order requirements).checkWithOptions paths cmd fallback
          ⟨true⟩, required.decision ≤ evaluation.decision) ↔
      requirements.exactMatches cmd ≠ [] ∨
        ∀ required ∈ requirements.matchHostExecutableRules paths cmd,
          EnforcesBasenameRule paths user requirements cmd fallback required.decision := by
  simp only [enforced_iff]
  by_cases noExact : requirements.exactMatches cmd = []
  · rw [matches_of_no_exactMatches paths none noExact]
    have alone : (if requirements.matchHostExecutableRules paths cmd = [] then
        (none : Option (List String → Decision)).toList.map fun fallback =>
          .heuristicsRuleMatch cmd (fallback cmd)
        else requirements.matchHostExecutableRules paths cmd) =
          requirements.matchHostExecutableRules paths cmd := by
      split
      next empty =>
        rw [empty]
        rfl
      · rfl
    rw [alone, or_iff_right (not_not.mpr noExact)]
    exact forall₂_congr fun required mem =>
      enforced_iff_enforcesBasenameRule paths order user requirements cmd fallback required
      noExact mem
  · refine iff_of_true ?_ (.inl noExact)
    have merged := exactMatches_mergeOverlay order user requirements cmd
    have some : (user.mergeOverlay order requirements).exactMatches cmd ≠ [] := by
      rw [merged]
      exact append_ne_nil_of_right_ne_nil _ noExact
    intro required mem
    rw [matches_of_exactMatches noExact] at mem
    rw [matches_of_exactMatches some, merged]
    exact ⟨required, mem_append_right _ mem, le_refl _⟩

/-- A POSIX process without a home directory: absolute tokens, and the last component as key. -/
def posixPaths : ProgramPaths String where
  absolutePath token := if token.toList.head? = some '/' then some token else none
  executablePathLookupKey path := (path.toList.splitOn '/').getLast?.map String.ofList

def singleRule (program : String) (decision : Decision) : RulesByProgram :=
  AList.singleton program [⟨⟨program, []⟩, decision, none⟩]

theorem listed_program_stays_forbidden :
    let requirements : Policy String := ⟨singleRule "git" .forbidden, [], ∅⟩
    let user : Policy String :=
      ⟨singleRule "git" .allow, [], AList.singleton "git" ["/usr/bin/git"]⟩
    ∀ required ∈ requirements.matchesForCommandWithOptions posixPaths ["/usr/bin/git"] none ⟨true⟩,
      ∃ evaluation ∈ (user.mergeOverlay ⟨id, fun _ => .refl _⟩ requirements).checkWithOptions
        posixPaths ["/usr/bin/git"] (fun _ => .allow) ⟨true⟩,
        required.decision ≤ evaluation.decision :=
  (requirements_enforced_iff posixPaths ⟨id, fun _ => .refl _⟩ _ _ _ _).mpr (by decide)

/-- Requirements that forbid a base name, under a user rule for the absolute program and under a
user table that lists another program. -/
theorem forbidden_basename_is_allowed :
    let requirements : Policy String := ⟨singleRule "git" .forbidden, [], ∅⟩
    let exactUser : Policy String := ⟨singleRule "/usr/bin/git" .allow, [], ∅⟩
    let tableUser : Policy String := ⟨∅, [], AList.singleton "git" ["/opt/git"]⟩
    let cmd := ["/usr/bin/git", "push"]
    ∀ user ∈ [exactUser, tableUser],
      ¬ ∀ required ∈ requirements.matchesForCommandWithOptions posixPaths cmd none ⟨true⟩,
        ∃ evaluation ∈ (user.mergeOverlay ⟨id, fun _ => .refl _⟩ requirements).checkWithOptions
          posixPaths cmd (fun _ => .allow) ⟨true⟩, required.decision ≤ evaluation.decision := by
  decide

end Policy

end CodexFormal.ExecPolicy
