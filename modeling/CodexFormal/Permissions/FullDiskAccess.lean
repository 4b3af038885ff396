import CodexFormal.Permissions.AccessResolution
import CodexFormal.Uri.FileSystemRoot

/-!
# Full access to the disk and the access of a path

The shortcuts for full access read the entries of a policy as they are written.
On the file system that the working directory belongs to, they agree with the
rules that the entries resolve to.
-/

set_option autoImplicit false

namespace CodexFormal.Permissions

open Foundation Uri List PathUri Option Bool FileSystemAccessMode

section

variable (lib : UrlLibrary)

namespace FileSystemSandboxPolicy

variable {lib} in
theorem mem_rules_resolvedEntries {policy : FileSystemSandboxPolicy}
    {context : FileSystemSandboxPolicyContext} {rule : Rule} :
    rule ∈ rules lib (resolvedEntries lib policy context) ↔
    ∃ entry ∈ policy.entries, ∃ root ∈ resolvedPaths lib context entry.path,
    inferPathConvention root = inferPathConvention context.cwd ∧
    location lib root = some rule.1 ∧ rule.2 = entry.access := by
  rw [mem_rules]
  constructor
  · rintro ⟨root, mem, loc⟩
    obtain ⟨entry, entryMem, resolved⟩ := mem_flatMap.mp mem
    obtain ⟨rootMem, convention, access⟩ := mem_resolvedEntry.mp resolved
    exact ⟨entry, entryMem, root, rootMem, convention, loc, access⟩
  · rintro ⟨entry, entryMem, root, rootMem, convention, loc, access⟩
    refine ⟨root, mem_flatMap.mpr ⟨entry, entryMem, ?_⟩, loc⟩
    exact mem_resolvedEntry.mpr ⟨rootMem, convention, access⟩

variable (path : PathUri)

theorem location_of_matches_slashTmp
    (fits : specialPathMatchesPathUri lib .slashTmp path = true) :
    location lib path = some ⟨.posix, none, ["tmp".toList]⟩ := by
  simp only [specialPathMatchesPathUri, and_eq_true, beq_iff_eq] at fits
  obtain ⟨⟨posix, lex⟩, base⟩ := fits
  obtain ⟨place, loc, depth⟩ := location_of_lexicalDepth lex
  cases path with
  | fallback bytes => cases loc
  | file url =>
    obtain ⟨convention, infer, _, rfl⟩ :=
      (location_eq_some_iff lib url place).mp loc
    cases posix.symm.trans infer
    rw [Location.depth, length_map] at depth
    obtain ⟨seg, only⟩ := length_eq_one_iff.mp depth
    rw [basename, only] at base
    rw [loc, host_of_posix url posix, only]
    exact congrArg (fun name => some (Location.mk .posix none [name])) (some.inj base)

variable (context : FileSystemSandboxPolicyContext)

theorem resolvedPaths_slashTmp (posix : inferPathConvention context.cwd = some .posix) :
    resolvedPaths lib context (.special .slashTmp) = [.file (slashTmp lib)] := by
  rw [resolvedPaths, if_pos posix, join_slashTmp lib context.cwd posix]
  rfl

theorem resolvedPaths_slashTmp_of_windows
    (windows : inferPathConvention context.cwd = some .windows) :
    resolvedPaths lib context (.special .slashTmp) = [] := by
  rw [resolvedPaths, if_neg (by simp [windows])]

structure OnFileSystem (context : FileSystemSandboxPolicyContext) (convention : PathConvention)
    (cwdPlace place : Location) : Prop where
  cwdLocated : PathUri.location lib context.cwd = some cwdPlace
  cwdConvention : PathUri.inferPathConvention context.cwd = some convention
  sameRoot : place.root = cwdPlace.root

variable {lib context} in
theorem cwd_of_resolvable {path : PathUri}
    {place : Location} (found : isResolvable lib context path = true)
    (loc : location lib path = some place) :
    inferPathConvention context.cwd = some place.convention ∧
    ∃ cwdPlace, location lib context.cwd = some cwdPlace := by
  unfold isResolvable at found
  split at found
  · cases found
  next convention cwdInferred =>
    rw [and_eq_true, and_eq_true, beq_iff_eq] at found
    obtain ⟨depth, lex⟩ := isSome_iff_exists.mp found.2
    obtain ⟨cwdPlace, cwdLoc, _⟩ := location_of_lexicalDepth lex
    have infer := convention_of_location loc
    exact ⟨cwdInferred.trans (found.1.1.symm.trans infer), cwdPlace, cwdLoc⟩

theorem onFileSystem_of_posix (path : PathUri)
    (place : Location) (found : isResolvable lib context path = true)
    (loc : location lib path = some place) (posix : place.convention = .posix) :
    ∃ cwdPlace, OnFileSystem lib context .posix cwdPlace place := by
  obtain ⟨infer, cwdPlace, cwdLoc⟩ :=
    cwd_of_resolvable found loc
  rw [posix] at infer
  have cwdPosix : cwdPlace.convention = .posix := some.inj
    ((convention_of_location cwdLoc).symm.trans infer)
  refine ⟨cwdPlace, cwdLoc, infer, ?_⟩
  rw [root_of_posix loc posix, root_of_posix cwdLoc cwdPosix]

theorem isResolvable_of_posix (path other : PathUri)
    (place otherPlace : Location) (found : isResolvable lib context path = true)
    (loc : location lib path = some place) (otherLoc : location lib other = some otherPlace)
    (posix : place.convention = .posix) (otherPosix : otherPlace.convention = .posix) :
    isResolvable lib context other = true := by
  obtain ⟨infer, cwdPlace, cwdLoc⟩ :=
    cwd_of_resolvable found loc
  have otherInfer := convention_of_location otherLoc
  rw [posix] at infer
  rw [otherPosix] at otherInfer
  simp [isResolvable, infer, otherInfer, lexicalDepth_eq, otherLoc, cwdLoc]

variable {lib} {context : FileSystemSandboxPolicyContext} {convention : PathConvention}
  {cwdPlace place : Location}

section

variable (on : OnFileSystem lib context convention cwdPlace place)

include on

theorem OnFileSystem.within : place.Within cwdPlace.root :=
  on.sameRoot ▸ place.within_root

theorem OnFileSystem.mem_rules_root
    (policy : FileSystemSandboxPolicy) (entry : FileSystemSandboxEntry)
    (mem : entry ∈ policy.entries) (isRoot : entry.path = .special .root) :
    (cwdPlace.root, entry.access) ∈ rules lib (resolvedEntries lib policy context) := by
  have loc := location_rootAncestor on.cwdLocated
  refine mem_rules_resolvedEntries.mpr ⟨entry, mem, rootAncestor context.cwd, ?_, ?_, loc, rfl⟩
  · rw [isRoot, resolvedPaths, fileSystemRoot, lexicalDepth_eq, on.cwdLocated]
    exact mem_singleton.mpr rfl
  · rw [convention_of_location loc, convention_of_location on.cwdLocated]
    rfl

theorem OnFileSystem.location_of_root
    (root : PathUri) (resolved : root ∈ resolvedPaths lib context (.special .root)) :
    location lib root = some cwdPlace.root := by
  rw [resolvedPaths, fileSystemRoot, lexicalDepth_eq, on.cwdLocated] at resolved
  rw [mem_singleton.mp resolved]
  exact location_rootAncestor on.cwdLocated

theorem OnFileSystem.depth_le_root (above : Location) (covers : place.Within above)
    (shallow : above.depth ≤ above.convention.anchorDepth) : above.depth ≤ cwdPlace.root.depth := by
  have deep := covers.depth_le
  have rootDepth : place.root.depth = min place.convention.anchorDepth place.depth :=
    length_take
  rw [covers.1] at shallow
  rw [← on.sameRoot, rootDepth]
  exact Nat.le_min.mpr ⟨shallow, deep⟩

end

/-- A write rule that takes precedence over the rule lies at its place or below it. -/
def Overridden (rules : List Rule) (place : Location) (rule : Rule) : Prop :=
  rule.2 < .write ∧ ∃ other ∈ rules, other.2 = .write ∧ place.Within other.1 ∧
    rule.1.depth ≤ other.1.depth

theorem Overridden.not_governs {rules : List Rule} {rule : Rule}
    (overridden : Overridden rules place rule) : ¬ Governs rules place rule := by
  intro gov
  obtain ⟨lower, other, mem, mode, covers, asDeep⟩ := overridden
  rcases gov.greatest other mem covers with deeper | ⟨_, atMost⟩
  · exact absurd deeper (Nat.not_lt.mpr asDeep)
  · rw [rank, rank, mode] at atMost
    exact absurd lower (not_lt.mpr atMost)

theorem write_of_overridden {rules : List Rule} {mode : FileSystemAccessMode}
    (covered : ∃ rule ∈ rules, place.Within rule.1)
    (overridden : ∀ rule ∈ rules, place.Within rule.1 →
    rule.2 = .write ∨ Overridden rules place rule)
    (gives : GivesAccess rules place mode) : mode = .write := by
  rcases gives with ⟨rule, gov, rfl⟩ | ⟨_, bare⟩
  · exact (overridden rule gov.mem gov.covers).resolve_right
      fun above => above.not_governs gov
  · obtain ⟨rule, mem, covers⟩ := covered
    exact absurd covers (bare rule mem)

variable {policy : FileSystemSandboxPolicy}

section

variable (on : OnFileSystem lib context convention cwdPlace place)

include on

theorem OnFileSystem.overridden
    (entry : FileSystemSandboxEntry) (notRoot : entry.path ≠ .special .root)
    (root : PathUri) (resolved : root ∈ resolvedPaths lib context entry.path)
    (rootConv : inferPathConvention root = inferPathConvention context.cwd)
    (above : Location) (loc : location lib root = some above) (covers : place.Within above)
    (override : hasSameTargetWriteOverride lib policy entry convention = true) :
    Overridden (rules lib (resolvedEntries lib policy context)) place (above, entry.access) := by
  obtain ⟨candidate, mem, shares⟩ := any_eq_true.mp override
  rw [and_eq_true, and_eq_true, decide_eq_true_eq] at shares
  obtain ⟨⟨canWrite, lower⟩, shares⟩ := shares
  have write : candidate.access = .write := beq_iff_eq.mp canWrite
  rw [write] at lower
  refine ⟨lower, ?_⟩
  -- a candidate that resolves to the place of the entry
  have atSamePlace : ∀ other ∈ resolvedPaths lib context candidate.path,
      inferPathConvention other = inferPathConvention context.cwd →
      location lib other = some above →
      ∃ rule ∈ rules lib (resolvedEntries lib policy context), rule.2 = .write ∧
        place.Within rule.1 ∧ above.depth ≤ rule.1.depth := by
    intro other otherResolved otherConvention otherLoc
    refine ⟨(above, .write), ?_, rfl, covers, Nat.le_refl _⟩
    exact mem_rules_resolvedEntries.mpr
      ⟨candidate, mem, other, otherResolved, otherConvention, otherLoc, write.symm⟩
  cases entryAt : entry.path with
  | globPattern pat =>
    rw [entryAt] at resolved
    cases resolved
  | path path =>
    rw [entryAt, resolvedPaths, mem_singleton] at resolved
    subst resolved
    cases candidatePath : candidate.path with
    | globPattern pat => simp [candidatePath, entryAt, fileSystemPathsShareTarget] at shares
    | path other =>
      rw [candidatePath, entryAt, fileSystemPathsShareTarget] at shares
      refine atSamePlace other ?_ ?_ ?_
      · rw [candidatePath]
        exact mem_singleton.mpr rfl
      · rw [inferPathConvention_eq_of_eqUri lib other root shares, rootConv]
      · rw [location_eq_of_eqUri lib other root shares, loc]
    | special value =>
      rw [candidatePath, entryAt, fileSystemPathsShareTarget, and_eq_true] at shares
      obtain ⟨_, fits⟩ := shares
      cases value with
      | root =>
        rw [specialPathMatchesPathUri, and_eq_true, isNone_iff_eq_none] at fits
        have shallow := depth_le_of_parent lib root above loc fits.2
        have rule := on.mem_rules_root policy candidate mem candidatePath
        rw [write] at rule
        exact ⟨_, rule, rfl, on.within, on.depth_le_root above covers shallow⟩
      | slashTmp =>
        have place := location_of_matches_slashTmp lib root fits
        have posix : inferPathConvention context.cwd = some .posix :=
          rootConv.symm.trans (convention_of_location place)
        refine atSamePlace (.file (slashTmp lib)) ?_ ?_ ?_
        · rw [candidatePath, resolvedPaths_slashTmp lib context posix]
          exact mem_singleton.mpr rfl
        · rw [inferPathConvention_slashTmp, posix]
        · rw [location_slashTmp, ← place, loc]
      | _ => cases fits
  | special value =>
    cases candidatePath : candidate.path with
    | globPattern pat => simp [candidatePath, entryAt, fileSystemPathsShareTarget] at shares
    | special other =>
      rw [candidatePath, entryAt, fileSystemPathsShareTarget, specialPathsShareTarget,
        beq_iff_eq] at shares
      refine atSamePlace root ?_ rootConv loc
      rw [candidatePath, shares, ← entryAt]
      exact resolved
    | path other =>
      rw [candidatePath, entryAt, fileSystemPathsShareTarget, and_eq_true, beq_iff_eq] at shares
      obtain ⟨otherConvention, fits⟩ := shares
      cases value with
      | root => exact absurd entryAt notRoot
      | slashTmp =>
        have otherPlace := location_of_matches_slashTmp lib other fits
        have otherPosix := convention_of_location otherPlace
        cases otherConvention.symm.trans otherPosix
        rw [entryAt, resolvedPaths_slashTmp lib context on.cwdConvention, mem_singleton] at resolved
        rw [resolved, location_slashTmp] at loc
        refine atSamePlace other ?_ ?_ ?_
        · rw [candidatePath]
          exact mem_singleton.mpr rfl
        · rw [otherPosix, on.cwdConvention]
        · rw [otherPlace, loc]
      | _ => cases fits

theorem OnFileSystem.overridden_of_fullAccess
    (restricted : policy.kind = .restricted) (rootWrite : hasRootAccess policy canWrite = true)
    (unnarrowed : hasWriteNarrowingEntries lib policy convention = false) (rule : Rule)
    (mem : rule ∈ rules lib (resolvedEntries lib policy context)) (covers : place.Within rule.1) :
    rule.2 = .write ∨ Overridden (rules lib (resolvedEntries lib policy context)) place rule := by
  obtain ⟨entry, entryMem, root, resolved, rootConv, loc, access⟩ :=
    mem_rules_resolvedEntries.mp mem
  obtain ⟨above, given⟩ := rule
  dsimp only at access covers loc
  subst access
  cases canWrite : entry.access.canWrite with
  | true => exact .inl (beq_iff_eq.mp canWrite)
  | false =>
    right
    rw [hasWriteNarrowingEntries, restricted] at unnarrowed
    have kept := any_eq_false.mp unnarrowed entry entryMem
    simp only [canWrite, Bool.not_false, Bool.true_and] at kept
    have override : entry.path ≠ .special .root →
      hasSameTargetWriteOverride lib policy entry convention = true →
      Overridden (rules lib (resolvedEntries lib policy context)) place
      (above, entry.access) := fun notRoot =>
      on.overridden entry notRoot root resolved rootConv above loc covers
    cases entryAt : entry.path with
    | globPattern pat =>
      rw [entryAt] at resolved
      cases resolved
    | path path => exact override (by simp [entryAt]) (by simpa [entryAt] using kept)
    | special value =>
      cases value with
      | root =>
        obtain ⟨broad, broadMem, broadRoot⟩ :=
          any_eq_true.mp (and_eq_true .. ▸ rootWrite : _ ∧ _).2
        rw [and_eq_true, beq_iff_eq] at broadRoot
        have write : broad.access = .write := beq_iff_eq.mp broadRoot.2
        have broadRule := on.mem_rules_root policy broad broadMem broadRoot.1
        rw [write] at broadRule
        have lower : entry.access < .write := by
          cases mode : entry.access with
          | read => decide
          | write => simp [mode, FileSystemAccessMode.canWrite] at canWrite
          | deny => simp [entryAt, mode] at kept
        rw [entryAt] at resolved
        have atRoot := on.location_of_root root resolved
        cases loc.symm.trans atRoot
        exact ⟨lower, _, broadRule, rfl, on.within, Nat.le_refl _⟩
      | slashTmp =>
        cases convention with
        | posix => exact override (by simp [entryAt]) (by simpa [entryAt] using kept)
        | windows =>
          rw [entryAt, resolvedPaths_slashTmp_of_windows lib context on.cwdConvention] at resolved
          cases resolved
      | minimal =>
        rw [entryAt] at resolved
        cases resolved
      | unknown path sub =>
        rw [entryAt] at resolved
        cases resolved
      | projectRoots sub =>
        exact override (by simp [entryAt]) (by simpa [entryAt] using kept)
      | tmpdir => exact override (by simp [entryAt]) (by simpa [entryAt] using kept)

theorem OnFileSystem.covered
    (predicate : FileSystemAccessMode → Bool) (rootAccess : hasRootAccess policy predicate = true) :
    ∃ rule ∈ rules lib (resolvedEntries lib policy context), place.Within rule.1 := by
  obtain ⟨entry, mem, isRoot⟩ :=
    any_eq_true.mp (and_eq_true .. ▸ rootAccess : _ ∧ _).2
  rw [and_eq_true, beq_iff_eq] at isRoot
  exact ⟨_, on.mem_rules_root policy entry mem isRoot.1, on.within⟩

theorem OnFileSystem.write_of_fullAccess (restricted : policy.kind = .restricted)
    (full : hasFullDiskWriteAccessForConvention lib policy (some convention) = true)
    (mode : FileSystemAccessMode)
    (gives : GivesAccess (rules lib (resolvedEntries lib policy context)) place mode) :
    mode = .write := by
  simp only [hasFullDiskWriteAccessForConvention, restricted, and_eq_true, not_eq_true'] at full
  exact write_of_overridden (on.covered _ full.1)
    (on.overridden_of_fullAccess restricted full.1 full.2) gives

theorem OnFileSystem.canRead_of_fullAccess (restricted : policy.kind = .restricted)
    (full : hasFullDiskReadAccessForConvention policy (some convention) = true)
    (mode : FileSystemAccessMode)
    (gives : GivesAccess (rules lib (resolvedEntries lib policy context)) place mode) :
    mode.canRead = true := by
  simp only [hasFullDiskReadAccessForConvention, restricted, and_eq_true, not_eq_true'] at full
  rcases gives with ⟨rule, gov, rfl⟩ | ⟨_, bare⟩
  · obtain ⟨entry, mem, root, resolved, _, _, mode⟩ :=
      mem_rules_resolvedEntries.mp gov.mem
    rw [hasDeniedReadRestrictionsForConvention, restricted] at full
    have kept := any_eq_false.mp full.2 entry mem
    rw [mode, canRead, bne_iff_ne]
    intro denied
    rw [denied] at kept
    -- only a directory that a Windows path does not have may be denied
    have ignored : entry.path = .special .slashTmp ∧ convention = .windows := by
      simpa using kept
    rw [ignored.1] at resolved
    rw [ignored.2] at on
    rw [resolvedPaths_slashTmp_of_windows lib context on.cwdConvention] at resolved
    cases resolved
  · obtain ⟨rule, mem, covers⟩ := on.covered _ full.1
    exact absurd covers (bare rule mem)

end

variable (lib)

theorem fullDiskAccess_resolved (policy : FileSystemSandboxPolicy)
    (context : FileSystemSandboxPolicyContext) (path : PathUri)
    (sameConvention :
      PathUri.inferPathConvention path = PathUri.inferPathConvention context.cwd)
    (lexical : HasLexicalRoots lib (resolvedEntries lib policy context))
    (pathLexical : (PathUri.lexicalDepth lib path).isSome = true)
    (cwdLexical : (PathUri.lexicalDepth lib context.cwd).isSome = true)
    (sameRoot : PathUri.inferPathConvention context.cwd = some .windows →
      PathUri.location lib (PathUri.rootAncestor path) =
        PathUri.location lib (PathUri.rootAncestor context.cwd)) :
    (hasFullDiskWriteAccessWithContext lib policy context = true →
        resolveAccess lib policy path context = .write) ∧
      (hasFullDiskReadAccessForConvention policy
          (PathUri.inferPathConvention context.cwd) = true →
        (resolveAccess lib policy path context).canRead = true) := by
  cases kind : policy.kind with
  | restricted =>
    obtain ⟨depth, pathDepth⟩ := isSome_iff_exists.mp pathLexical
    obtain ⟨place, located, _⟩ := location_of_lexicalDepth pathDepth
    obtain ⟨cwdDepth, cwdDepthOf⟩ := isSome_iff_exists.mp cwdLexical
    obtain ⟨cwdPlace, cwdLocated, _⟩ := location_of_lexicalDepth cwdDepthOf
    have inferred := convention_of_location located
    have cwdInferred := convention_of_location cwdLocated
    have sameConventions : place.convention = cwdPlace.convention :=
      some.inj (inferred.symm.trans (sameConvention.trans cwdInferred))
    have sameRoots : place.root = cwdPlace.root := by
      cases convention : cwdPlace.convention with
      | posix =>
        rw [root_of_posix located (sameConventions.trans convention),
          root_of_posix cwdLocated convention]
      | windows =>
        rw [convention] at cwdInferred
        have same := sameRoot cwdInferred
        rw [location_rootAncestor located, location_rootAncestor cwdLocated] at same
        exact some.inj same
    have on : OnFileSystem lib context cwdPlace.convention cwdPlace place :=
      ⟨cwdLocated, cwdInferred, sameRoots⟩
    have resolvable : isResolvable lib context path = true := by
      simp [isResolvable, cwdInferred, sameConvention, pathLexical, cwdLexical]
    have gives :=
      givesAccess_resolveAccess policy kind resolvable located lexical
    rw [hasFullDiskWriteAccessWithContext, cwdInferred]
    exact ⟨fun full => on.write_of_fullAccess kind full _ gives,
      fun full => on.canRead_of_fullAccess kind full _ gives⟩
  | _ => simp [resolveAccess, kind, canRead]

end FileSystemSandboxPolicy

end

namespace FileSystemSandboxPolicy

open Uri.PercentEncoding (urlLibrary)

def onDrive (drive : Char) (names : List String) : PathUri :=
  .file ⟨none, [drive, ':'] :: names.map String.toList⟩

/-- Everything may be written, but some paths only read. -/
def rootWrite (readOnly : List PathUri) : FileSystemSandboxPolicy :=
  ⟨.restricted, none,
    ⟨.special .root, .write, none⟩ :: readOnly.map fun path => ⟨.path path, .read, none⟩⟩

def workingIn (cwd : PathUri) : FileSystemSandboxPolicyContext := ⟨cwd, [cwd], none, none⟩

theorem rootWrite_drive_resolved :
    resolveAccess urlLibrary (rootWrite [onDrive 'C' []]) (onDrive 'C' ["work", "a.txt"])
      (workingIn (onDrive 'C' ["work"])) = .write :=
  (fullDiskAccess_resolved urlLibrary (rootWrite [onDrive 'C' []])
    (workingIn (onDrive 'C' ["work"])) (onDrive 'C' ["work", "a.txt"]) (by decide)
    (by unfold HasLexicalRoots; decide) (by decide) (by decide) (by decide)).1 (by decide)

def FullAccessButResolves (policy : FileSystemSandboxPolicy)
    (context : FileSystemSandboxPolicyContext) (path : PathUri) (access : FileSystemAccessMode) :
    Prop :=
  PathUri.inferPathConvention path = PathUri.inferPathConvention context.cwd ∧
    HasLexicalRoots urlLibrary (resolvedEntries urlLibrary policy context) ∧
    hasFullDiskWriteAccessWithContext urlLibrary policy context = true ∧
    hasFullDiskReadAccessForConvention policy (PathUri.inferPathConvention context.cwd) = true ∧
    resolveAccess urlLibrary policy path context = access

instance (policy : FileSystemSandboxPolicy) (context : FileSystemSandboxPolicyContext)
    (path : PathUri) (access : FileSystemAccessMode) :
    Decidable (FullAccessButResolves policy context path access) := by
  unfold FullAccessButResolves HasLexicalRoots
  infer_instance

/-- The root of the working directory does not cover another drive, an entry for the root of
another drive is taken for the root, and an ambiguous path is denied. -/
theorem fullDiskAccess_differs_elsewhere :
    FullAccessButResolves (rootWrite []) (workingIn (onDrive 'C' ["work"]))
        (onDrive 'D' ["data"]) .deny ∧
      FullAccessButResolves (rootWrite [onDrive 'D' []]) (workingIn (onDrive 'C' ["work"]))
        (onDrive 'D' ["data"]) .read ∧
      FullAccessButResolves (rootWrite []) (workingIn (.file ⟨none, ["w".toList]⟩))
        (.file ⟨none, ["w%2Fa".toList]⟩) .deny := by
  decide

end FileSystemSandboxPolicy

end CodexFormal.Permissions
