import CodexFormal.Permissions.Metadata
import CodexFormal.Uri.ConfigPath

/-!
# Materialized workspace roots

Entries for the workspace roots are replaced by entries for each root.  A
subpath that could leave the root is rejected: a grant is dropped, and any other
entry becomes a denial of the whole root.  A rejected entry that applied outside
the root is lost there.
-/

set_option autoImplicit false

namespace CodexFormal.Permissions

open Foundation Uri List PathUri
open Patch (Text)

def projectRootsGlobPatternPrefix : Text := "codex-project-roots://".toList

def workspaceSubpath (path : FileSystemPath) : Option (Option Text × Bool) :=
  match path with
  | .special (.projectRoots subpath) => some (subpath, false)
  | .globPattern pattern =>
    if projectRootsGlobPatternPrefix.isPrefixOf pattern then
      some (some (pattern.drop projectRootsGlobPatternPrefix.length), true)
    else none
  | _ => none

def isScopedSubpath (convention : PathConvention) (subpath : Text) : Bool :=
  !(subpath.head? == some '/' || (convention == .windows && subpath.head? == some '\\') ||
    ((convention.pathSegments subpath).any fun segment =>
      segment == ['.'] || segment == ['.', '.']) ||
    (convention == .windows &&
      (convention.pathSegments subpath).any fun segment => segment.contains ':'))

section

variable (lib : UrlLibrary) (replaced : Bytes → Text)

def resolveScopedWorkspacePath (root : PathUri) (subpath : Text) : Option PathUri :=
  match PathUri.inferPathConvention root with
  | none => none
  | some convention =>
    if isScopedSubpath convention subpath then
      match PathUri.join lib root subpath with
      | .ok path => if PathUri.startsWith lib path root then some path else none
      | .error _ => none
    else none

def isGlobRoot (root : PathUri) : Bool :=
  match PathUri.inferPathConvention root with
  | some convention => PathUri.validateGlobDirectory lib replaced root convention
  | none => false

def materializedPath (root : PathUri) (subpath : Option Text) (isGlob : Bool) : Option PathUri :=
  if isGlob && !isGlobRoot lib replaced root then none
  else match subpath with
    | none => some root
    | some subpath => resolveScopedWorkspacePath lib root subpath

def materializedTarget (isGlob : Bool) (path : PathUri) : FileSystemPath :=
  if isGlob then .globPattern (PathUri.inferredNativePathString lib replaced path) else .path path

def materializedEntry (entry : FileSystemSandboxEntry) (subpath : Option Text) (isGlob : Bool)
    (root : PathUri) : Option FileSystemSandboxEntry :=
  match materializedPath lib replaced root subpath isGlob with
  | some path =>
    some { entry with path := materializedTarget lib replaced isGlob path }
  | none =>
    if entry.access.canWrite then none
    else some { entry with path := .path root, access := .deny }

def materializedEntries (workspaceRoots : List PathUri) (entry : FileSystemSandboxEntry) :
    List FileSystemSandboxEntry :=
  match workspaceSubpath entry.path with
  | none => [entry]
  | some (subpath, isGlob) =>
    workspaceRoots.filterMap (materializedEntry lib replaced entry subpath isGlob)

def isHomeRelativeDenial (workspaceRoots : List PathUri) (entry : FileSystemSandboxEntry) : Bool :=
  entry.access == .deny &&
    match workspaceSubpath entry.path with
    | some (some subpath, _) =>
      workspaceRoots.any fun root =>
        match PathUri.inferPathConvention root with
        | some convention => (convention.homeRelativeSuffix subpath).isSome
        | none => false
    | _ => false

namespace FileSystemSandboxPolicy

def restrictedTo (entries : List FileSystemSandboxEntry) : FileSystemSandboxPolicy :=
  ⟨.restricted, none, entries⟩

def tryMaterializeProjectRootsWithPathUris (policy : FileSystemSandboxPolicy)
    (workspaceRoots : List PathUri) : Option FileSystemSandboxPolicy :=
  if policy.entries.any (isHomeRelativeDenial workspaceRoots) then none
  else some { policy with
    entries := policy.entries.flatMap (materializedEntries lib replaced workspaceRoots) }

def materializeProjectRootsWithPathUris (policy : FileSystemSandboxPolicy)
    (workspaceRoots : List PathUri) : FileSystemSandboxPolicy :=
  (tryMaterializeProjectRootsWithPathUris lib replaced policy workspaceRoots).getD
    (restrictedTo [])

end FileSystemSandboxPolicy

section

variable (context : FileSystemSandboxPolicyContext)

/-- Only roots of the convention of the context count. -/
def inContext
    (entries : List (PathUri × FileSystemAccessMode)) : List (PathUri × FileSystemAccessMode) :=
  entries.filter fun entry =>
    PathUri.inferPathConvention entry.1 == PathUri.inferPathConvention context.cwd

section

variable (entry : FileSystemSandboxEntry)

/-- What both policies resolve an entry to. -/
def keptEntries : List (PathUri × FileSystemAccessMode) :=
  match entry.path with
  | .special (.projectRoots (some subpath)) =>
    inContext context ((context.workspaceRoots.filterMap fun root =>
      resolveScopedWorkspacePath lib root subpath).map (·, entry.access))
  | _ => resolvedEntry lib context entry

/-- The roots whose subpath is rejected, with the paths that the text leads to. -/
def lostEntries : List (PathUri × FileSystemAccessMode) :=
  match entry.path with
  | .special (.projectRoots (some subpath)) =>
    inContext context ((context.workspaceRoots.filterMap fun root =>
      if (resolveScopedWorkspacePath lib root subpath).isNone then
        (PathUri.join lib root subpath).toOption
      else none).map (·, entry.access))
  | _ => []

def deniedRoots : List (PathUri × FileSystemAccessMode) :=
  match workspaceSubpath entry.path with
  | none => []
  | some (subpath, isGlob) =>
    if entry.access.canWrite then []
    else inContext context ((context.workspaceRoots.filter fun root =>
      (materializedPath lib replaced root subpath isGlob).isNone).map (·, .deny))

end

end

section

variable {lib} {ctx : FileSystemSandboxPolicyContext}

theorem mem_inContext
    (entries : List (PathUri × FileSystemAccessMode)) (entry : PathUri × FileSystemAccessMode) :
    entry ∈ inContext ctx entries ↔ entry ∈ entries ∧
    inferPathConvention entry.1 = inferPathConvention ctx.cwd := by
  simp [inContext]

theorem join_of_resolveScopedWorkspacePath {root path : PathUri} {subpath : Text}
    (isOk : resolveScopedWorkspacePath lib root subpath = some path) :
    join lib root subpath = .ok path := by
  unfold resolveScopedWorkspacePath at isOk
  split at isOk
  · cases isOk
  · split at isOk
    · split at isOk
      next joined =>
        split at isOk
        · rw [joined, Option.some.inj isOk]
        · cases isOk
      · cases isOk
    · cases isOk

variable {entry : FileSystemSandboxEntry} {resolved : PathUri × FileSystemAccessMode}

section

variable {sub : Text} (isWorkspace : entry.path = .special (.projectRoots (some sub)))

include isWorkspace

theorem mem_keptEntries_scoped : resolved ∈ keptEntries lib ctx entry ↔
    (∃ root ∈ ctx.workspaceRoots, resolveScopedWorkspacePath lib root sub = some resolved.1) ∧
    inferPathConvention resolved.1 = inferPathConvention ctx.cwd ∧ resolved.2 = entry.access := by
  obtain ⟨path, access⟩ := resolved
  simp only [keptEntries, isWorkspace, mem_inContext, mem_map, mem_filterMap, Prod.mk.injEq]
  constructor
  · rintro ⟨⟨other, found, rfl, rfl⟩, conv⟩
    exact ⟨found, conv, rfl⟩
  · rintro ⟨found, conv, rfl⟩
    exact ⟨⟨path, found, rfl, rfl⟩, conv⟩

theorem mem_lostEntries_scoped : resolved ∈ lostEntries lib ctx entry ↔
    (∃ root ∈ ctx.workspaceRoots, resolveScopedWorkspacePath lib root sub = none ∧
    join lib root sub = .ok resolved.1) ∧
    inferPathConvention resolved.1 = inferPathConvention ctx.cwd ∧ resolved.2 = entry.access := by
  obtain ⟨path, access⟩ := resolved
  simp only [lostEntries, isWorkspace, mem_inContext, mem_map, mem_filterMap, Prod.mk.injEq]
  constructor
  · rintro ⟨⟨other, ⟨root, mem, found⟩, rfl, rfl⟩, conv⟩
    refine ⟨⟨root, mem, ?_⟩, conv, rfl⟩
    split at found
    next rejected =>
      exact ⟨Option.isNone_iff_eq_none.mp rejected, toOption_eq_some.mp found⟩
    · cases found
  · rintro ⟨⟨root, mem, rejected, joined⟩, conv, rfl⟩
    refine ⟨⟨path, ⟨root, mem, ?_⟩, rfl, rfl⟩, conv⟩
    rw [rejected, joined]
    rfl

end

theorem mem_resolvedEntry_iff : resolved ∈ resolvedEntry lib ctx entry ↔
    resolved ∈ keptEntries lib ctx entry ∨ resolved ∈ lostEntries lib ctx entry := by
  by_cases isWorkspace : ∃ subpath, entry.path = .special (.projectRoots (some subpath))
  · obtain ⟨subpath, isWorkspace⟩ := isWorkspace
    rw [mem_resolvedEntry, mem_keptEntries_scoped isWorkspace, mem_lostEntries_scoped isWorkspace,
      isWorkspace, ← or_and_right]
    refine and_congr_left fun _ => ?_
    simp only [resolvedPaths, mem_filterMap, toOption_eq_some]
    constructor
    · rintro ⟨root, mem, joined⟩
      cases isOk : resolveScopedWorkspacePath lib root subpath with
      | none => exact .inr ⟨root, mem, isOk, joined⟩
      | some path =>
        have same := join_of_resolveScopedWorkspacePath isOk
        cases same.symm.trans joined
        exact .inl ⟨root, mem, isOk⟩
    · rintro (⟨root, mem, isOk⟩ | ⟨root, mem, _, joined⟩)
      · exact ⟨root, mem, join_of_resolveScopedWorkspacePath isOk⟩
      · exact ⟨root, mem, joined⟩
  · have kept : keptEntries lib ctx entry = resolvedEntry lib ctx entry := by
      unfold keptEntries
      split
      next subpath isSubpath =>
        exact absurd ⟨subpath, isSubpath⟩ isWorkspace
      · rfl
    have lost : lostEntries lib ctx entry = [] := by
      unfold lostEntries
      split
      next subpath isSubpath =>
        exact absurd ⟨subpath, isSubpath⟩ isWorkspace
      · rfl
    rw [kept, lost]
    simp

variable {sub : Option Text} {isGlob : Bool}

theorem mem_resolvedEntry_materializedEntry (root : PathUri) :
    (∃ mat, materializedEntry lib replaced entry sub isGlob root =
    some mat ∧ resolved ∈ resolvedEntry lib ctx mat) ↔
    ((isGlob = false ∧ materializedPath lib replaced root sub isGlob = some resolved.1 ∧
    resolved.2 = entry.access) ∨ (materializedPath lib replaced root sub isGlob = none ∧
    entry.access.canWrite = false ∧ resolved = (root, .deny))) ∧
    inferPathConvention resolved.1 = inferPathConvention ctx.cwd := by
  unfold materializedEntry
  cases target : materializedPath lib replaced root sub isGlob with
  | some path =>
    simp only [Option.some.injEq, exists_eq_left', mem_resolvedEntry, reduceCtorEq, false_and,
      or_false]
    cases isGlob with
    | true => simp [materializedTarget, resolvedPaths]
    | false =>
      simp only [materializedTarget, Bool.false_eq_true, if_false, resolvedPaths,
        mem_singleton, true_and]
      constructor
      · rintro ⟨same, conv, access⟩
        exact ⟨⟨same.symm, access⟩, conv⟩
      · rintro ⟨⟨same, access⟩, conv⟩
        exact ⟨same.symm, conv, access⟩
  | none =>
    simp only [reduceCtorEq, false_and, and_false, false_or, true_and]
    cases writes : entry.access.canWrite with
    | true => simp
    | false =>
      simp only [Bool.false_eq_true, if_false, Option.some.injEq, exists_eq_left',
        mem_resolvedEntry, resolvedPaths, mem_singleton, true_and]
      obtain ⟨path, access⟩ := resolved
      simp only [Prod.mk.injEq]
      tauto

section

variable (isWorkspace : workspaceSubpath entry.path = some (sub, isGlob))

include isWorkspace

theorem mem_keptEntries_workspace : resolved ∈ keptEntries lib ctx entry ↔
    ∃ root ∈ ctx.workspaceRoots, isGlob = false ∧
    materializedPath lib replaced root sub isGlob = some resolved.1 ∧
    resolved.2 = entry.access ∧ inferPathConvention resolved.1 = inferPathConvention ctx.cwd := by
  unfold workspaceSubpath at isWorkspace
  split at isWorkspace
  next given isRoots =>
    cases isWorkspace
    cases sub with
    | none =>
      simp only [keptEntries, isRoots, mem_resolvedEntry, resolvedPaths, mem_filterMap,
        materializedPath, Bool.false_and, Bool.false_eq_true, if_false, Option.some.injEq,
        true_and]
      constructor
      · rintro ⟨⟨root, mem, same⟩, conv, access⟩
        exact ⟨root, mem, same, access, conv⟩
      · rintro ⟨root, mem, same, access, conv⟩
        exact ⟨⟨root, mem, same⟩, conv, access⟩
    | some sub =>
      rw [mem_keptEntries_scoped isRoots]
      simp only [materializedPath, Bool.false_and, Bool.false_eq_true, if_false, true_and]
      constructor
      · rintro ⟨⟨root, mem, same⟩, conv, access⟩
        exact ⟨root, mem, same, access, conv⟩
      · rintro ⟨root, mem, same, access, conv⟩
        exact ⟨⟨root, mem, same⟩, conv, access⟩
  next pat isPattern =>
    split at isWorkspace
    · cases isWorkspace
      simp [keptEntries, isPattern, mem_resolvedEntry, resolvedPaths]
    · cases isWorkspace
  · cases isWorkspace

theorem mem_deniedRoots_workspace :
    resolved ∈ deniedRoots lib replaced ctx entry ↔ ∃ root ∈ ctx.workspaceRoots,
    materializedPath lib replaced root sub isGlob = none ∧
    entry.access.canWrite = false ∧ resolved = (root, .deny) ∧
    inferPathConvention resolved.1 = inferPathConvention ctx.cwd := by
  simp only [deniedRoots, isWorkspace]
  cases writes : entry.access.canWrite with
  | true => simp
  | false =>
    simp only [Bool.false_eq_true, if_false, mem_inContext, mem_map, mem_filter,
      Option.isNone_iff_eq_none, true_and]
    constructor
    · rintro ⟨⟨root, ⟨mem, rejected⟩, rfl⟩, conv⟩
      exact ⟨root, mem, rejected, rfl, conv⟩
    · rintro ⟨root, mem, rejected, rfl, conv⟩
      exact ⟨⟨root, ⟨mem, rejected⟩, rfl⟩, conv⟩

end

theorem mem_materialized_iff :
    resolved ∈ (materializedEntries lib replaced ctx.workspaceRoots entry).flatMap
    (resolvedEntry lib ctx) ↔ resolved ∈ keptEntries lib ctx entry ∨
    resolved ∈ deniedRoots lib replaced ctx entry := by
  unfold materializedEntries
  cases isWorkspace : workspaceSubpath entry.path with
  | none =>
    have kept : keptEntries lib ctx entry = resolvedEntry lib ctx entry := by
      unfold keptEntries
      split
      next isRoots =>
        rw [isRoots] at isWorkspace
        cases isWorkspace
      · rfl
    simp [kept, deniedRoots, isWorkspace]
  | some target =>
    obtain ⟨sub, isGlob⟩ := target
    rw [mem_keptEntries_workspace replaced isWorkspace,
      mem_deniedRoots_workspace replaced isWorkspace]
    simp only [mem_flatMap, mem_filterMap]
    constructor
    · rintro ⟨mat, ⟨root, mem, found⟩, isIn⟩
      obtain ⟨cases, conv⟩ := (mem_resolvedEntry_materializedEntry replaced root).mp
        ⟨mat, found, isIn⟩
      rcases cases with ⟨notGlob, target, mode⟩ | ⟨rejected, notWrite, same⟩
      · exact .inl ⟨root, mem, notGlob, target, mode, conv⟩
      · exact .inr ⟨root, mem, rejected, notWrite, same, conv⟩
    · rintro (⟨root, mem, notGlob, target, mode, conv⟩ |
        ⟨root, mem, rejected, notWrite, same, conv⟩)
      · obtain ⟨mat, found, isIn⟩ :=
          (mem_resolvedEntry_materializedEntry replaced root).mpr
            ⟨.inl ⟨notGlob, target, mode⟩, conv⟩
        exact ⟨mat, ⟨root, mem, found⟩, isIn⟩
      · obtain ⟨mat, found, isIn⟩ :=
          (mem_resolvedEntry_materializedEntry replaced root).mpr
            ⟨.inr ⟨rejected, notWrite, same⟩, conv⟩
        exact ⟨mat, ⟨root, mem, found⟩, isIn⟩

end

namespace FileSystemSandboxPolicy

section

variable (policy : FileSystemSandboxPolicy)

section

variable (context : FileSystemSandboxPolicyContext)

def kept : List (PathUri × FileSystemAccessMode) :=
  policy.entries.flatMap (keptEntries lib context)

def lost : List (PathUri × FileSystemAccessMode) :=
  policy.entries.flatMap (lostEntries lib context)

def denied : List (PathUri × FileSystemAccessMode) :=
  policy.entries.flatMap (deniedRoots lib replaced context)

/-- The most specific rule for the path is a rejected entry, or a rejected entry makes the
symbolic policy unusable, and the rules that remain grant more. -/
def LosesNarrowing (path : PathUri) : Prop :=
  policy.kind = .restricted ∧
    policy.entries.any (isHomeRelativeDenial context.workspaceRoots) = false ∧
    isResolvable lib context path = true ∧
    HasLexicalRoots lib (kept lib policy context ++ denied lib replaced policy context) ∧
    ∃ place granted, PathUri.location lib path = some place ∧
      Governs (rules lib (kept lib policy context ++ denied lib replaced policy context)) place
        granted ∧
      ((¬ HasLexicalRoots lib (lost lib policy context) ∧ granted.2 ≠ .deny) ∨
        (HasLexicalRoots lib (lost lib policy context) ∧
          ∃ narrow ∈ rules lib (lost lib policy context),
            Governs (rules lib (kept lib policy context ++ lost lib policy context)) place
              narrow ∧
            narrow.2.breadth < granted.2.breadth))

end

end

variable (policy : FileSystemSandboxPolicy) (context : FileSystemSandboxPolicyContext)

theorem mem_resolvedEntries_iff (resolved : PathUri × FileSystemAccessMode) :
    resolved ∈ resolvedEntries lib policy context ↔
    resolved ∈ kept lib policy context ++ lost lib policy context := by
  simp only [resolvedEntries, kept, lost, mem_append, mem_flatMap,
    mem_resolvedEntry_iff, and_or_left, exists_or]

theorem mem_resolvedEntries_materialized_iff
    (known : policy.entries.any (isHomeRelativeDenial context.workspaceRoots) = false)
    (resolved : PathUri × FileSystemAccessMode) : resolved ∈ resolvedEntries lib
    (materializeProjectRootsWithPathUris lib replaced policy context.workspaceRoots) context ↔
    resolved ∈ kept lib policy context ++ denied lib replaced policy context := by
  have entries : ∀ entry, resolved ∈
      (materializedEntries lib replaced context.workspaceRoots entry).flatMap
        (resolvedEntry lib context) ↔ resolved ∈ keptEntries lib context entry ∨
        resolved ∈ deniedRoots lib replaced context entry :=
    fun entry => mem_materialized_iff replaced
  simp only [resolvedEntries, materializeProjectRootsWithPathUris,
    tryMaterializeProjectRootsWithPathUris, known, Bool.false_eq_true, if_false,
    Option.getD_some, flatMap_assoc, kept, denied, mem_append]
  rw [mem_flatMap]
  simp [entries, and_or_left, exists_or]

theorem materialized_kind (workspaceRoots : List PathUri) (restricted : policy.kind = .restricted) :
    (materializeProjectRootsWithPathUris lib replaced policy workspaceRoots).kind =
    .restricted := by
  unfold materializeProjectRootsWithPathUris tryMaterializeProjectRootsWithPathUris
  split
  · rfl
  · exact restricted

theorem access_of_mem_denied (resolved : PathUri × FileSystemAccessMode)
    (mem : resolved ∈ denied lib replaced policy context) : resolved.2 = .deny := by
  obtain ⟨entry, _, isIn⟩ := mem_flatMap.mp mem
  cases isWorkspace : workspaceSubpath entry.path with
  | none => simp [deniedRoots, isWorkspace] at isIn
  | some target =>
    obtain ⟨root, _, _, _, rfl, _⟩ := (mem_deniedRoots_workspace replaced isWorkspace).mp isIn
    rfl

/-- Where both policies are decided by rules, access grows only if a lost rule governs. -/
theorem breadth_lt_iff_lost_governs {kept lost denied : List Rule} {place : Location}
    {pre after : FileSystemAccessMode} (givesBefore : GivesAccess (kept ++ lost) place pre)
    (givesAfter : GivesAccess (kept ++ denied) place after)
    (denies : ∀ rule ∈ denied, rule.2 = .deny) : pre.breadth < after.breadth ↔
    ∃ given, Governs (kept ++ denied) place given ∧
    ∃ narrow ∈ lost, Governs (kept ++ lost) place narrow ∧ narrow.2.breadth < given.2.breadth := by
  constructor
  · intro grows
    rcases givesAfter with ⟨given, govAfter, rfl⟩ | ⟨rfl, _⟩
    · have grantedKept : given ∈ kept := by
        rcases mem_append.mp govAfter.mem with inKept | inDenied
        · exact inKept
        · rw [denies given inDenied] at grows
          cases grows
      rcases givesBefore with ⟨narrow, govBefore, rfl⟩ | ⟨_, bare⟩
      · refine ⟨given, govAfter, narrow, ?_, govBefore, grows⟩
        rcases mem_append.mp govBefore.mem with inKept | inLost
        · -- both rules would be the most specific kept one
          have same := (govBefore.of_subset inKept
            fun _ mem => mem_append_left _ mem).unique
            (govAfter.of_subset grantedKept fun _ mem => mem_append_left _ mem)
          rw [same] at grows
          exact absurd grows (Nat.lt_irrefl _)
        · exact inLost
      · exact absurd govAfter.covers (bare given (mem_append_left _ grantedKept))
    · cases grows
  · rintro ⟨given, govAfter, narrow, _, govBefore, grows⟩
    rwa [givesBefore.unique (.inl ⟨narrow, govBefore, rfl⟩),
      givesAfter.unique (.inl ⟨given, govAfter, rfl⟩)]

variable (path : PathUri)

theorem resolveAccess_restrictedTo_nil (context : FileSystemSandboxPolicyContext) :
    resolveAccess lib (restrictedTo []) path context = .deny := by
  simp [resolveAccess, restrictedTo, resolvedEntries, lexicalEntries, lastMaximum]

theorem breadth_deny_lt_iff {rules : List Rule} {place : Location}
    {after : FileSystemAccessMode} (gives : GivesAccess rules place after) :
    FileSystemAccessMode.breadth .deny < after.breadth ↔
    ∃ given, Governs rules place given ∧ given.2 ≠ .deny := by
  constructor
  · intro grows
    rcases gives with ⟨given, gov, rfl⟩ | ⟨rfl, _⟩
    · refine ⟨given, gov, fun denies => ?_⟩
      rw [denies] at grows
      cases grows
    · cases grows
  · rintro ⟨given, gov, grants⟩
    rw [gives.unique (.inl ⟨given, gov, rfl⟩)]
    cases mode : given.2 with
    | deny => exact absurd mode grants
    | _ => decide

theorem breadth_lt_iff_of_lexical (place : Location) (restricted : policy.kind = .restricted)
    (known : policy.entries.any (isHomeRelativeDenial context.workspaceRoots) = false)
    (found : isResolvable lib context path = true) (loc : location lib path = some place)
    (lexicalAfter : HasLexicalRoots lib
    (kept lib policy context ++ denied lib replaced policy context)) :
    (resolveAccess lib policy path context).breadth < (resolveAccess lib
    (materializeProjectRootsWithPathUris lib replaced policy context.workspaceRoots) path
    context).breadth ↔ ∃ given, Governs (rules lib (kept lib policy context ++
    denied lib replaced policy context)) place given ∧
    ((¬ HasLexicalRoots lib (lost lib policy context) ∧ given.2 ≠ .deny) ∨
    (HasLexicalRoots lib (lost lib policy context) ∧ ∃ narrow ∈ rules lib (lost lib policy context),
    Governs (rules lib (kept lib policy context ++ lost lib policy context)) place
    narrow ∧ narrow.2.breadth < given.2.breadth)) := by
  have entriesBefore := mem_resolvedEntries_iff lib policy context
  have entriesAfter := mem_resolvedEntries_materialized_iff lib replaced policy context known
  have givesAfter := (givesAccess_resolveAccess _
    (materialized_kind lib replaced policy context.workspaceRoots restricted) found loc
    ((HasLexicalRoots.congr entriesAfter).mpr lexicalAfter)).congr
    (mem_rules_congr lib entriesAfter)
  by_cases lexicalLost : HasLexicalRoots lib (lost lib policy context)
  · have lexicalBefore : HasLexicalRoots lib (kept lib policy context ++ lost lib policy context) :=
      (hasLexicalRoots_append lib _ _).mpr
        ⟨((hasLexicalRoots_append lib _ _).mp lexicalAfter).1, lexicalLost⟩
    have givesBefore := (givesAccess_resolveAccess policy restricted
      found loc ((HasLexicalRoots.congr entriesBefore).mpr lexicalBefore)).congr
      (mem_rules_congr lib entriesBefore)
    have denies : ∀ rule ∈ rules lib (denied lib replaced policy context), rule.2 = .deny := by
      intro rule mem
      obtain ⟨root, isIn, _⟩ := mem_rules.mp mem
      exact access_of_mem_denied lib replaced policy context _ isIn
    rw [rules_append] at givesAfter givesBefore
    rw [breadth_lt_iff_lost_governs givesBefore givesAfter denies]
    simp only [lexicalLost, rules_append, true_and, not_true_eq_false, false_and, false_or]
  · have ambiguous : ¬ HasLexicalRoots lib (resolvedEntries lib policy context) :=
      fun lex => lexicalLost ((hasLexicalRoots_append lib _ _).mp
        ((HasLexicalRoots.congr entriesBefore).mp lex)).2
    rw [resolveAccess_of_ambiguous path restricted ambiguous, breadth_deny_lt_iff givesAfter]
    simp only [lexicalLost, not_false_eq_true, true_and, false_and, or_false]

theorem breadth_le_write (mode : FileSystemAccessMode) :
    mode.breadth ≤ FileSystemAccessMode.breadth .write := by
  cases mode <;> decide

theorem resolveAccess_of_not_restricted
    (context : FileSystemSandboxPolicyContext) (notRestricted : policy.kind ≠ .restricted) :
    resolveAccess lib policy path context = .write := by
  cases kind : policy.kind with
  | restricted => exact absurd kind notRestricted
  | _ => simp [resolveAccess, kind]

/-- Materializing widens the access of a path exactly where a narrowing entry is lost. -/
theorem materialized_access_le_iff (policy : FileSystemSandboxPolicy)
    (context : FileSystemSandboxPolicyContext) (path : PathUri) :
    (resolveAccess lib
        (materializeProjectRootsWithPathUris lib replaced policy context.workspaceRoots) path
        context).breadth ≤ (resolveAccess lib policy path context).breadth ↔
      ¬ LosesNarrowing lib replaced policy context path := by
  rw [← not_lt]
  refine not_congr ?_
  unfold LosesNarrowing
  by_cases restricted : policy.kind = .restricted
  swap
  · rw [resolveAccess_of_not_restricted lib policy path context restricted]
    exact iff_of_false (Nat.not_lt.mpr (breadth_le_write _)) fun loses => restricted loses.1
  have restrictedAfter := materialized_kind lib replaced policy context.workspaceRoots restricted
  cases known : policy.entries.any (isHomeRelativeDenial context.workspaceRoots) with
  | true =>
    have cleared : materializeProjectRootsWithPathUris lib replaced policy
        context.workspaceRoots = restrictedTo [] := by
      simp [materializeProjectRootsWithPathUris, tryMaterializeProjectRootsWithPathUris, known]
    rw [cleared, resolveAccess_restrictedTo_nil]
    exact iff_of_false (Nat.not_lt_zero _) fun loses => Bool.false_ne_true loses.2.1.symm
  | false =>
    cases resolvable : isResolvable lib context path with
    | false =>
      rw [resolveAccess_of_not_resolvable restrictedAfter resolvable]
      exact iff_of_false (Nat.not_lt_zero _) fun loses => Bool.false_ne_true loses.2.2.1
    | true =>
      obtain ⟨place, located⟩ := location_of_resolvable resolvable
      by_cases lexicalAfter : HasLexicalRoots lib
        (kept lib policy context ++ denied lib replaced policy context)
      · rw [breadth_lt_iff_of_lexical lib replaced policy context path place restricted known
          resolvable located lexicalAfter]
        simp [restricted, lexicalAfter, located]
      · have entriesAfter :=
          mem_resolvedEntries_materialized_iff lib replaced policy context known
        rw [resolveAccess_of_ambiguous path restrictedAfter
          (mt (HasLexicalRoots.congr entriesAfter).mp lexicalAfter)]
        exact iff_of_false (Nat.not_lt_zero _) fun loses => lexicalAfter loses.2.2.2.1

def sourceReadOnlyPolicy : FileSystemSandboxPolicy where
  kind := .restricted
  globScanMaxDepth := none
  entries :=
    [⟨.special (.projectRoots none), .write, none⟩,
      ⟨.special (.projectRoots (some "src".toList)), .read, none⟩]

/-- A subpath that stays below the root loses nothing. -/
theorem source_stays_read_only :
    (resolveAccess PercentEncoding.urlLibrary (materializeProjectRootsWithPathUris
        PercentEncoding.urlLibrary (fun _ => []) sourceReadOnlyPolicy
        workspaceContext.workspaceRoots)
        (.file ⟨none, ["w".toList, "src".toList, "main".toList]⟩) workspaceContext).breadth ≤
      (resolveAccess PercentEncoding.urlLibrary sourceReadOnlyPolicy
        (.file ⟨none, ["w".toList, "src".toList, "main".toList]⟩) workspaceContext).breadth := by
  refine (materialized_access_le_iff PercentEncoding.urlLibrary (fun _ => [])
    sourceReadOnlyPolicy workspaceContext _).mpr ?_
  have nothingLost : lost PercentEncoding.urlLibrary sourceReadOnlyPolicy workspaceContext = [] :=
    by decide
  rintro ⟨_, _, _, _, _, _, _, _, ⟨ambiguous, _⟩ | ⟨_, narrow, mem, _⟩⟩
  · rw [nothingLost] at ambiguous
    exact ambiguous fun _ mem => by cases mem
  · rw [nothingLost] at mem
    cases mem

/-- Everything can be written except a sibling of the workspace root. -/
def siblingDeniedPolicy : FileSystemSandboxPolicy where
  kind := .restricted
  globScanMaxDepth := none
  entries :=
    [⟨.special .root, .write, none⟩,
      ⟨.special (.projectRoots (some "../secret".toList)), .deny, none⟩]

/-- The denial of the sibling becomes one of the workspace root, and the sibling can be written. -/
theorem sibling_denial_is_lost :
    resolveAccess PercentEncoding.urlLibrary siblingDeniedPolicy
        (.file ⟨none, ["secret".toList, "key".toList]⟩) workspaceContext = .deny ∧
      resolveAccess PercentEncoding.urlLibrary (materializeProjectRootsWithPathUris
        PercentEncoding.urlLibrary (fun _ => []) siblingDeniedPolicy
        workspaceContext.workspaceRoots) (.file ⟨none, ["secret".toList, "key".toList]⟩)
        workspaceContext = .write := by
  decide

end FileSystemSandboxPolicy

end

end CodexFormal.Permissions
