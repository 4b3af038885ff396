import CodexFormal.Foundation.FiniteMap

/-!
# Execution policies

Prefix rules are filed under the program they start with.  A command is matched
under its first token; if no rule matches there, an absolute program can still be
matched under its base name, as far as the table of host executables allows it.

How a token becomes an absolute path depends on the process, so both this and the
key of a path are arguments.
-/

set_option autoImplicit false

namespace CodexFormal.ExecPolicy

open Foundation

inductive Decision where
  | allow
  | prompt
  | forbidden
deriving DecidableEq, Repr

namespace Decision

def strictness : Decision → Nat
  | allow => 0
  | prompt => 1
  | forbidden => 2

theorem strictness_injective : Function.Injective strictness := by
  intro first second same
  cases first <;> cases second <;> first | rfl | cases same

instance : LinearOrder Decision := LinearOrder.lift' strictness strictness_injective

end Decision

inductive PatternToken where
  | single (expected : String)
  | alts (alternatives : List String)
deriving DecidableEq, Repr

def PatternToken.matches : PatternToken → String → Bool
  | single expected, token => expected == token
  | alts alternatives, token => alternatives.any (· == token)

structure PrefixPattern where
  first : String
  rest : List PatternToken
deriving DecidableEq, Repr

def PrefixPattern.matchesPrefix (pattern : PrefixPattern) (cmd : List String) :
    Option (List String) :=
  match cmd with
  | [] => none
  | program :: arguments =>
    if arguments.length < pattern.rest.length ∨ program ≠ pattern.first then none
    else if (pattern.rest.zip arguments).all fun (token, argument) => token.matches argument then
      some (cmd.take (pattern.rest.length + 1))
    else none

structure PrefixRule where
  pattern : PrefixPattern
  decision : Decision
  justification : Option String
deriving DecidableEq, Repr

inductive RuleMatch (AbsolutePath : Type) where
  | prefixRuleMatch (matchedPrefix : List String) (decision : Decision)
      (resolvedProgram : Option AbsolutePath) (justification : Option String)
  | heuristicsRuleMatch (command : List String) (decision : Decision)
deriving DecidableEq, Repr

namespace RuleMatch

variable {AbsolutePath : Type}

def decision : RuleMatch AbsolutePath → Decision
  | prefixRuleMatch _ decision _ _ => decision
  | heuristicsRuleMatch _ decision => decision

def withResolvedProgram (program : AbsolutePath) : RuleMatch AbsolutePath → RuleMatch AbsolutePath
  | prefixRuleMatch matchedPrefix decision _ justification =>
    prefixRuleMatch matchedPrefix decision (some program) justification
  | heuristicsRuleMatch command decision => heuristicsRuleMatch command decision

end RuleMatch

def PrefixRule.matches {AbsolutePath : Type} (rule : PrefixRule) (cmd : List String) :
    Option (RuleMatch AbsolutePath) :=
  (rule.pattern.matchesPrefix cmd).map fun matchedPrefix =>
    .prefixRuleMatch matchedPrefix rule.decision none rule.justification

inductive NetworkRuleProtocol where
  | http
  | https
  | socks5Tcp
  | socks5Udp
deriving DecidableEq, Repr

structure NetworkRule where
  host : String
  protocol : NetworkRuleProtocol
  decision : Decision
  justification : Option String
deriving DecidableEq, Repr

structure ProgramPaths (AbsolutePath : Type) where
  absolutePath : String → Option AbsolutePath
  executablePathLookupKey : AbsolutePath → Option String

abbrev RulesByProgram := FiniteMap String (List PrefixRule)

def RulesByProgram.push (rules : RulesByProgram) (program : String) (rule : PrefixRule) :
    RulesByProgram :=
  rules.insert program ((rules.lookup program).getD [] ++ [rule])

structure MatchOptions where
  resolveHostExecutables : Bool
deriving DecidableEq, Repr

structure Policy (AbsolutePath : Type) where
  rulesByProgram : RulesByProgram
  networkRules : List NetworkRule
  hostExecutablesByName : FiniteMap String (List AbsolutePath)

structure Evaluation (AbsolutePath : Type) where
  decision : Decision
  matchedRules : List (RuleMatch AbsolutePath)
deriving DecidableEq, Repr

/-- The strictest decision; `none` stands for the panic on an empty list. -/
def Evaluation.fromMatches {AbsolutePath : Type} (matchedRules : List (RuleMatch AbsolutePath)) :
    Option (Evaluation AbsolutePath) :=
  (matchedRules.map RuleMatch.decision).max?.map fun decision => ⟨decision, matchedRules⟩

namespace Policy

variable {AbsolutePath : Type}

/-- The order is the one in which the rules of the overlay are visited. -/
def mergeOverlay (order : FiniteMap.Arrangement (Sigma fun _ : String => List PrefixRule))
    (policy overlay : Policy AbsolutePath) : Policy AbsolutePath where
  rulesByProgram :=
    (order.arrange overlay.rulesByProgram.entries).foldl
      (fun combined entry =>
        entry.2.foldl (fun combined rule => combined.push entry.1 rule) combined)
      policy.rulesByProgram
  networkRules := policy.networkRules ++ overlay.networkRules
  hostExecutablesByName := overlay.hostExecutablesByName ∪ policy.hostExecutablesByName

def matchExactRules (policy : Policy AbsolutePath) (cmd : List String) :
    Option (List (RuleMatch AbsolutePath)) :=
  cmd.head?.map fun first =>
    ((policy.rulesByProgram.lookup first).getD []).filterMap (·.matches cmd)

variable [DecidableEq AbsolutePath] (paths : ProgramPaths AbsolutePath)
  (policy : Policy AbsolutePath) (cmd : List String)

def matchHostExecutableRules : List (RuleMatch AbsolutePath) :=
  match cmd with
  | [] => []
  | first :: arguments =>
    match paths.absolutePath first with
    | none => []
    | some program =>
      match paths.executablePathLookupKey program with
      | none => []
      | some basename =>
        match policy.rulesByProgram.lookup basename with
        | none => []
        | some rules =>
          if (policy.hostExecutablesByName.lookup basename).any
              (fun listed => !listed.contains program) then []
          else (rules.filterMap (·.matches (basename :: arguments))).map
            (RuleMatch.withResolvedProgram program)

def matchesForCommandWithOptions
    (heuristicsFallback : Option (List String → Decision)) (options : MatchOptions) :
    List (RuleMatch AbsolutePath) :=
  let exact := (policy.matchExactRules cmd).getD []
  let matchedRules :=
    if exact = [] then
      if options.resolveHostExecutables then policy.matchHostExecutableRules paths cmd else []
    else exact
  match heuristicsFallback with
  | some heuristicsFallback =>
    if matchedRules = [] then [.heuristicsRuleMatch cmd (heuristicsFallback cmd)]
    else matchedRules
  | none => matchedRules

def checkWithOptions (heuristicsFallback : List String → Decision) (options : MatchOptions) :
    Option (Evaluation AbsolutePath) :=
  Evaluation.fromMatches
    (policy.matchesForCommandWithOptions paths cmd (some heuristicsFallback) options)

end Policy

end CodexFormal.ExecPolicy
