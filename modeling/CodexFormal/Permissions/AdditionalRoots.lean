import CodexFormal.Permissions.FullDiskAccess
import CodexFormal.Permissions.ReadableRoots

/-!
# Additional roots

A policy is given further readable or writable roots by entries at the end of its
list, one for each root that it does not let be read or written yet.  Such a grant
takes nothing away: an entry that were narrower than a grant above it would be an
entry for a root that this grant already covers.
-/

set_option autoImplicit false

namespace CodexFormal.Permissions

open Foundation Uri List PathUri FileSystemAccessMode

section

variable (lib : UrlLibrary) (host : LocalHost)

namespace FileSystemSandboxPolicy

variable (policy : FileSystemSandboxPolicy)

def pushEntry (path : PathUri) (access : FileSystemAccessMode) : FileSystemSandboxPolicy :=
  { policy with entries := policy.entries ++ [⟨.path path, access, none⟩] }

/-- The loop of both functions: a root that is not allowed yet gets an entry. -/
def pushRoots (isAllowed : FileSystemSandboxPolicy → AbsolutePathBuf → Bool)
    (access : FileSystemAccessMode) (policy : FileSystemSandboxPolicy)
    (roots : List AbsolutePathBuf) : FileSystemSandboxPolicy :=
  roots.foldl (fun policy path =>
    if isAllowed policy path then policy
    else policy.pushEntry (PathUri.fromAbsPath lib path) access) policy

def withAdditionalReadableRoots (cwd : AbsolutePathBuf)
    (additionalReadableRoots : List AbsolutePathBuf) : FileSystemSandboxPolicy :=
  if hasFullDiskReadAccess policy then policy
  else pushRoots lib (fun policy path => canReadLocalPathWithCwd lib host policy path.toText cwd)
    .read policy additionalReadableRoots

def withAdditionalWritableRoots (cwd : AbsolutePathBuf)
    (additionalWritableRoots : List AbsolutePathBuf) : FileSystemSandboxPolicy :=
  pushRoots lib (fun policy path => canWriteLocalPathWithCwd lib host policy path.toText cwd)
    .write policy additionalWritableRoots

variable {rules : List Rule} {rule : Rule} {place : Location} {before after : FileSystemAccessMode}

/-- A further rule changes the access of a place to its own, and then the access was no stronger at
the place of the rule, or is that of the place of the rule. -/
theorem GivesAccess.append (gives : GivesAccess rules place before)
    (givesAfter : GivesAccess (rules ++ [rule]) place after) :
    after = before ∨ after = rule.2 ∧ place.Within rule.1 ∧
    (before ≤ rule.2 ∨ GivesAccess rules rule.1 before) := by
  rcases givesAfter with ⟨governing, gov, rfl⟩ | ⟨rfl, bare⟩
  · rcases mem_append.mp gov.mem with old | new
    · exact .inl ((gives.unique (.inl ⟨governing, gov.of_subset old
        fun other => mem_append_left _, rfl⟩)).symm)
    · cases mem_singleton.mp new
      refine .inr ⟨rfl, gov.covers, ?_⟩
      rcases gives with ⟨former, formerGov, rfl⟩ | ⟨rfl, bare⟩
      · rcases gov.greatest former (mem_append_left _ formerGov.mem)
          formerGov.covers with shallower | ⟨_, weaker⟩
        · refine .inr (.inl ⟨former, ⟨formerGov.mem, Location.Within.of_depth_le
            formerGov.covers gov.covers (Nat.le_of_lt shallower), ?_⟩, rfl⟩)
          intro other mem covers
          exact formerGov.greatest other mem (gov.covers.trans covers)
        · exact .inl weaker
      · exact .inr (.inr ⟨rfl, fun other mem covers =>
          bare other mem (gov.covers.trans covers)⟩)
  · rcases gives with ⟨former, formerGov, rfl⟩ | ⟨rfl, _⟩
    · exact absurd formerGov.covers (bare former (mem_append_left _ formerGov.mem))
    · exact .inl rfl

structure IsRoot (context : FileSystemSandboxPolicyContext) (root : PathUri) (above : Location) :
    Prop where
  resolvable : isResolvable lib context root = true
  valid : PathUri.IsValid lib root
  located : PathUri.location lib root = some above
  posix : above.convention = .posix

structure IsLexical (policy : FileSystemSandboxPolicy)
    (context : FileSystemSandboxPolicyContext) : Prop where
  restricted : policy.kind = .restricted
  plain : HasPlainRoots lib (resolvedEntries lib policy context)

variable {lib} {policy : FileSystemSandboxPolicy} {context : FileSystemSandboxPolicyContext}
  {path root : PathUri} {above : Location} {access : FileSystemAccessMode}

theorem IsLexical.gives (lexical : IsLexical lib policy context)
    (resolvable : isResolvable lib context path = true) (loc : location lib path = some place) :
    GivesAccess (Permissions.rules lib (resolvedEntries lib policy context)) place
    (resolveAccess lib policy path context) := by
  refine givesAccess_resolveAccess policy lexical.restricted resolvable loc ?_
  intro entry mem
  obtain ⟨_, above, rootLoc⟩ := lexical.plain entry mem
  exact .inr (by rw [rootLoc]; rfl)

variable (lib context path) in
/-- What the path is allowed before it is allowed after. -/
structure KeepsAccess (before after : FileSystemSandboxPolicy) : Prop where
  canRead : (resolveAccess lib before path context).canRead = true →
    (resolveAccess lib after path context).canRead = true
  canWrite : canWritePath lib before path context = true →
    canWritePath lib after path context = true

variable (lib access context path) in
/-- Access is kept, and is decided alike for a path that is aside of the new roots. -/
structure Extends (aside : Prop) (before after : FileSystemSandboxPolicy) : Prop extends
    KeepsAccess lib context path before after where
  sameAccess : aside → resolveAccess lib after path context = resolveAccess lib before path context
  sameDenial : aside →
    metadataWriteDenial lib after path context = metadataWriteDenial lib before path context
  sameFull : access = .read → hasFullDiskWriteAccessWithContext lib after context =
    hasFullDiskWriteAccessWithContext lib before context

section

variable (isRoot : IsRoot lib context root above)

include isRoot

theorem resolvedEntries_pushEntry : resolvedEntries lib (policy.pushEntry root access) context =
    resolvedEntries lib policy context ++ [(root, access)] := by
  obtain ⟨cwdConvention, _⟩ := cwd_of_resolvable isRoot.resolvable isRoot.located
  have conv := (convention_of_location isRoot.located).trans cwdConvention.symm
  simp [resolvedEntries, pushEntry, resolvedEntry, resolvedPaths, conv]

theorem IsLexical.push (lexical : IsLexical lib policy context) :
    IsLexical lib (policy.pushEntry root access) context := by
  refine ⟨lexical.restricted, ?_⟩
  rw [resolvedEntries_pushEntry isRoot]
  intro entry mem
  rcases mem_append.mp mem with old | new
  · exact lexical.plain entry old
  · cases mem_singleton.mp new
    exact ⟨isRoot.valid, _, isRoot.located⟩

variable (lex : IsLexical lib policy context)

include lex

variable (resolvable : isResolvable lib context path = true)

include resolvable

theorem resolveAccess_pushEntry : resolveAccess lib (policy.pushEntry root access) path context =
    resolveAccess lib policy path context ∨
    resolveAccess lib (policy.pushEntry root access) path context = access ∧
    startsWith lib path root = true ∧ (resolveAccess lib policy path context ≤ access ∨
    resolveAccess lib policy path context = resolveAccess lib policy root context) := by
  obtain ⟨place, located⟩ := location_of_resolvable resolvable
  have after : IsLexical lib (policy.pushEntry root access) context := lex.push isRoot
  have givesAfter := after.gives resolvable located
  have single : Permissions.rules lib [(root, access)] = [(above, access)] := by
    simp [Permissions.rules, isRoot.located]
  rw [resolvedEntries_pushEntry isRoot, rules_append, single] at givesAfter
  rcases (lex.gives resolvable located).append givesAfter with same | ⟨given, within, earlier⟩
  · exact .inl same
  · exact .inr ⟨given, (startsWith_iff located).mpr
      ⟨_, isRoot.located, within⟩, earlier.imp id fun givesRoot =>
      givesRoot.unique (lex.gives isRoot.resolvable isRoot.located)⟩

omit resolvable in
theorem write_of_fullDiskAccess (full : hasFullDiskWriteAccessWithContext lib policy context =
  true) :
    resolveAccess lib policy root context = .write := by
  obtain ⟨_, on⟩ := onFileSystem_of_posix lib _ _ _ isRoot.resolvable isRoot.located isRoot.posix
  rw [hasFullDiskWriteAccessWithContext, on.cwdConvention] at full
  exact on.write_of_fullAccess lex.restricted full _ (lex.gives isRoot.resolvable isRoot.located)

omit resolvable in
theorem fullDiskAccess_pushRead (refused : resolveAccess lib policy root context = .deny) :
    hasFullDiskWriteAccessWithContext lib (policy.pushEntry root .read) context =
    hasFullDiskWriteAccessWithContext lib policy context := by
  have override : ∀ entry convention, hasSameTargetWriteOverride lib (policy.pushEntry root .read)
      entry convention = hasSameTargetWriteOverride lib policy entry convention := by
    simp [hasSameTargetWriteOverride, pushEntry, canWrite]
  have notFull : hasFullDiskWriteAccessWithContext lib policy context ≠ true := by
    intro full
    rw [write_of_fullDiskAccess isRoot lex full] at refused
    cases refused
  rw [Bool.eq_false_iff.mpr notFull, Bool.eq_false_iff]
  intro full
  apply notFull
  obtain ⟨_, on⟩ := onFileSystem_of_posix lib _ _ _ isRoot.resolvable isRoot.located isRoot.posix
  have kind : (policy.pushEntry root .read).kind = .restricted := lex.restricted
  simp only [hasFullDiskWriteAccessWithContext, on.cwdConvention,
    hasFullDiskWriteAccessForConvention, lex.restricted, kind, Bool.and_eq_true,
    Bool.not_eq_true'] at full ⊢
  simp only [hasRootAccess, hasWriteNarrowingEntries, override] at full ⊢
  simp [pushEntry, lex.restricted] at full ⊢
  exact ⟨full.1, full.2.1⟩

theorem metadataWriteDenial_pushEntry (aside : access = .write → startsWith lib path root = false) :
    metadataWriteDenial lib (policy.pushEntry root access) path context =
    metadataWriteDenial lib policy path context := by
  have noDirectory : access = .write → protectedDirectory lib path root = none := by
    intro writes
    obtain ⟨place, located⟩ := location_of_resolvable resolvable
    cases found : protectedDirectory lib path root with
    | none => rfl
    | some dir =>
      have isIn := (protectedDirectory_eq_some located isRoot.valid isRoot.located found).2.2.2
      have below := (startsWith_iff located).mpr
        ⟨_, isRoot.located, isIn.trans (Location.child_within _ _)⟩
      rw [aside writes] at below
      cases below
  have bare : ([(root, access)].filter fun entry => entry.2.canWrite).findSome?
      (fun entry => protectedDirectory lib path entry.1) = none := by
    by_cases writes : access = .write <;> simp [writes, noDirectory, canWrite]
  have kind : (policy.pushEntry root access).kind = .restricted := lex.restricted
  simp only [metadataWriteDenial, kind, lex.restricted, if_true,
    resolvedEntries_pushEntry isRoot, filter_append, findSome?_append, bare,
    Option.or_none]
  cases ((resolvedEntries lib policy context).filter fun entry => entry.2.canWrite).findSome?
    fun entry => protectedDirectory lib path entry.1 with
  | none => rfl
  | some dir =>
    refine if_congr ?_ rfl rfl
    rw [any_append]
    by_cases writes : access = .write <;> simp [writes, aside, canWrite]

theorem metadataWriteDenial_pushWrite (refused : canWritePath lib policy root context = false)
    (granted : canWritePath lib policy path context = true) :
    metadataWriteDenial lib (policy.pushEntry root .write) path context = none := by
  obtain ⟨place, located⟩ := location_of_resolvable resolvable
  have valid : HasValidRoots lib (resolvedEntries lib policy context) :=
    fun entry mem => .inr (lex.plain entry mem)
  have notFull : hasFullDiskWriteAccessWithContext lib policy context ≠ true := by
    intro full
    simp [canWritePath, write_of_fullDiskAccess isRoot lex full, full, canWrite] at refused
  simp only [canWritePath, Bool.eq_false_iff.mpr notFull, Bool.false_or, Bool.and_eq_true,
    canWrite, beq_iff_eq, Option.isNone_iff_eq_none] at granted
  obtain ⟨write, undenied⟩ := granted
  refine (metadataWriteDenial_eq_none (lex.push isRoot).restricted).mpr ?_
  intro first guarded name scan found
  rw [resolvedEntries_pushEntry isRoot] at scan ⊢
  rw [find?_append] at scan
  cases former : (resolvedEntries lib policy context).find? (protects lib path) with
  | some protector =>
    rw [former] at scan
    cases scan
    obtain ⟨other, mem, reopens⟩ := (metadataWriteDenial_eq_none lex.restricted).mp
      undenied first guarded name former found
    exact ⟨other, mem_append_left _ mem, reopens⟩
  | none =>
    rw [former, Option.none_or] at scan
    cases mem_singleton.mp (mem_of_find?_eq_some scan)
    have isIn := (protectedDirectory_eq_some located isRoot.valid isRoot.located
      found).2.2.2.trans (Location.child_within _ _)
    rw [reopened_iff_of_protectedDirectory _ located isRoot.valid isRoot.located found]
    rcases lex.gives resolvable located with ⟨rule, gov, given⟩ | ⟨denied, _⟩
    · refine ⟨rule, ?_, given.trans write, gov.covers, ?_⟩
      · rw [rules_append]
        exact mem_append_left _ gov.mem
      · by_contra shallow
        -- the rule governs the root as well, and what protects the root protects the path
        have givesRoot : GivesAccess _ above .write :=
          Or.inl ⟨rule, ⟨gov.mem, gov.covers.of_depth_le isIn
            (Nat.le_of_not_lt shallow), fun other mem covers =>
            gov.greatest other mem (isIn.trans covers)⟩, given.trans write⟩
        have rootWrite := givesRoot.unique (lex.gives isRoot.resolvable isRoot.located)
        have rootUndenied : metadataWriteDenial lib policy root context = none := by
          refine (metadataWriteDenial_eq_none lex.restricted).mpr ?_
          intro protector _ _ rootSearch _
          have mem := mem_of_find?_eq_some rootSearch
          obtain ⟨writes, upper, upperLocated, metadata, safe, within⟩ :=
            (protects_iff valid isRoot.located mem).mp (find?_some rootSearch)
          exact absurd ((protects_iff valid located mem).mpr ⟨writes, upper, upperLocated,
            metadata, safe, isIn.trans within⟩) (find?_eq_none.mp former _ mem)
        simp [canWritePath, ← rootWrite, rootUndenied, canWrite] at refused
    · rw [write] at denied
      cases denied

variable {aside : Prop} (isAside : aside → PathUri.startsWith lib path root = false)

include isAside

theorem extends_pushRead (refused : resolveAccess lib policy root context = .deny) :
    Extends lib context path .read aside policy (policy.pushEntry root .read) := by
  have full := fullDiskAccess_pushRead isRoot lex refused
  have denial := @metadataWriteDenial_pushEntry _ _ _ path _ _ .read isRoot lex resolvable nofun
  rcases @resolveAccess_pushEntry _ _ _ path _ _ .read isRoot lex resolvable with
    same | ⟨given, below, earlier⟩
  · exact ⟨⟨fun granted => same ▸ granted,
      fun granted => by rw [canWritePath, same, full, denial]; exact granted⟩,
      fun _ => same, fun _ => denial, fun _ => full⟩
  · refine ⟨⟨fun _ => by rw [given]; rfl, fun granted => ?_⟩, fun out => ?_, fun _ => denial,
      fun _ => full⟩
    · rw [canWritePath, Bool.and_eq_true, canWrite, beq_iff_eq] at granted
      rw [refused, granted.1] at earlier
      rcases earlier with weaker | denied
      · exact absurd weaker (by decide)
      · cases denied
    · rw [isAside out] at below
      cases below

theorem extends_pushWrite (refused : canWritePath lib policy root context = false) :
    Extends lib context path .write aside policy (policy.pushEntry root .write) := by
  have access := @resolveAccess_pushEntry _ _ _ path _ _ .write isRoot lex resolvable
  refine ⟨⟨fun granted => ?_, fun granted => ?_⟩, fun out => ?_, fun out =>
    metadataWriteDenial_pushEntry isRoot lex resolvable fun _ => isAside out, nofun⟩
  · rcases access with same | ⟨given, _⟩
    · exact same ▸ granted
    · rw [given]; rfl
  · have undenied := metadataWriteDenial_pushWrite isRoot lex resolvable refused granted
    rw [canWritePath, Bool.and_eq_true] at granted
    rw [canWritePath, undenied, Option.isNone_none, Bool.or_true, Bool.and_true]
    rcases access with same | ⟨given, _⟩
    · exact same ▸ granted.1
    · rw [given]; rfl
  · rcases access with same | ⟨_, below, _⟩
    · exact same
    · rw [isAside out] at below
      cases below

end

variable {aside : Prop}

theorem Extends.trans {before mid after : FileSystemSandboxPolicy}
    (first : Extends lib context path access aside before mid)
    (second : Extends lib context path access aside mid after) :
    Extends lib context path access aside before after :=
  ⟨⟨second.canRead ∘ first.canRead, second.canWrite ∘ first.canWrite⟩,
    fun out => (second.sameAccess out).trans (first.sameAccess out),
    fun out => (second.sameDenial out).trans (first.sameDenial out),
    fun reads => (second.sameFull reads).trans (first.sameFull reads)⟩

variable {isAllowed : FileSystemSandboxPolicy → AbsolutePathBuf → Bool}

theorem extends_pushRoots {roots : List AbsolutePathBuf}
    (step : ∀ policy, IsLexical lib policy context → ∀ root ∈ roots,
    isAllowed policy root = false → Extends lib context path access aside policy
    (policy.pushEntry (fromAbsPath lib root) access))
    (isRoot : ∀ root ∈ roots, IsRoot lib context (fromAbsPath lib root) (placeOf root))
    (lexical : IsLexical lib policy context) : Extends lib context path access aside policy
    (pushRoots lib isAllowed access policy roots) := by
  induction roots generalizing policy with
  | nil => exact ⟨⟨id, id⟩, fun _ => rfl, fun _ => rfl, fun _ => rfl⟩
  | cons root rest ih =>
    have later := fun policy lexical => @ih policy
      (fun policy lexical root mem => step policy lexical root (mem_cons_of_mem _ mem))
      (fun root mem => isRoot root (mem_cons_of_mem _ mem)) lexical
    rw [pushRoots, foldl_cons]
    split
    · exact later policy lexical
    next refused =>
      exact (step policy lexical root mem_cons_self (by simpa using refused)).trans
        (later _ (lexical.push (isRoot root mem_cons_self)))

theorem kind_pushRoots (roots : List AbsolutePathBuf) :
    (pushRoots lib isAllowed access policy roots).kind = policy.kind := by
  induction roots generalizing policy with
  | nil => rfl
  | cons root rest ih =>
    rw [pushRoots, foldl_cons]
    refine ih.trans ?_
    split <;> rfl

/-- Aside of the roots only a newly complete write access to the disk makes a difference. -/
theorem Extends.sameWrite {before after : FileSystemSandboxPolicy}
    (isExtension : Extends lib context path access aside before after) (out : aside) :
    canWritePath lib after path context = canWritePath lib before path context ∨
    access ≠ .read ∧ hasFullDiskWriteAccessWithContext lib before context = false ∧
    hasFullDiskWriteAccessWithContext lib after context = true ∧
    metadataWriteDenial lib before path context ≠ none := by
  have keeps := isExtension.canWrite
  have sameFull := isExtension.sameFull
  simp only [canWritePath, isExtension.sameAccess out, isExtension.sameDenial out]
    at keeps ⊢
  by_cases reads : access = .read
  · exact .inl (by rw [sameFull reads])
  · revert keeps
    cases (resolveAccess lib before path context).canWrite <;>
      cases hasFullDiskWriteAccessWithContext lib before context <;>
      cases hasFullDiskWriteAccessWithContext lib after context <;>
      cases metadataWriteDenial lib before path context <;> simp [reads]

variable (lib)

open PercentEncoding (urlLibrary)

def lockedDirectoryPolicy : FileSystemSandboxPolicy := narrowedRootPolicy (filePath [['a']])

def lockedDirectory : AbsolutePathBuf := ⟨[['a']], by decide⟩

theorem lockedDirectoryPolicy_plain : HasPlainRoots urlLibrary
    (localEntries urlLibrary emptyHost lockedDirectoryPolicy workspaceDirectory) := by
  have roots : ∀ entry ∈ localEntries urlLibrary emptyHost lockedDirectoryPolicy
      workspaceDirectory, entry.1 = .file ⟨none, [[]]⟩ ∨ entry.1 = .file ⟨none, [['a']]⟩ := by
    decide
  intro entry mem
  rcases roots entry mem with root | root <;> rw [root]
  · exact ⟨by unfold IsValid IsPathUrl; decide, ⟨.posix, none, []⟩, by decide⟩
  · exact ⟨by unfold IsValid IsPathUrl; decide, ⟨.posix, none, [['a']]⟩, by decide⟩

end FileSystemSandboxPolicy

end

end CodexFormal.Permissions
