import CodexFormal.LinuxSandbox.MountPlanAccess

/-!
# The mount plan within the policy

A path that the mount plan makes writable can be written under the policy, a
path that it makes readable can be read, and the existing writable roots stay
writable.  Where the plan goes beyond the policy, an entry is read in two ways,
a path that it names is missing, or a `.git` file points out of its root.
-/

set_option autoImplicit false

namespace CodexFormal.LinuxSandbox

open Foundation Uri Permissions List PathUri AbsolutePathBuf BwrapOperation
open Permissions.FileSystemSandboxPolicy
open Patch (Text)
open PercentEncoding (urlLibrary)

section

variable (lib : UrlLibrary) (host : SandboxHost) (policy : FileSystemSandboxPolicy)
  (cwd : AbsolutePathBuf) (options : BwrapOptions)

/-- A policy without globs, platform defaults and full write access, on a host without links. -/
structure HasPlainPlan : Prop where
  noSymlinks : host.HasNoSymlinks
  tree : HasTree host
  wellFormed : HasWellFormedPaths lib policy
  notFull : policy.hasFullDiskWriteAccess lib = false
  noGlobs : HasNoGlobs policy
  noDefaults : policy.includePlatformDefaults = false

variable {lib host policy cwd} in
theorem existing_of_sorted {before after : List WritableRoot} {root : WritableRoot}
    (split : sortedWritableRoots lib host policy cwd = before ++ root :: after) :
    root ∈ existingWritableRoots lib host policy cwd := by
  rw [← mem_sortedWritableRoots, split]
  exact mem_append_right _ (mem_cons_self ..)

theorem names_push_protected (root : AbsolutePathBuf) {name : Text}
    (safe : name ∈ protectedMetadataPathNames) : (root.push name).names = root.names ++ [name] := by
  have isPlain := isPlainName_of_protected safe
  exact names_push_of_component root name
    ((isComponent_iff name).mpr ⟨isPlain.notDots.1, isPlain.notDots.2.1,
    isPlain.notDots.2.2, fun slash => (isPlain.plain '/' slash).1 rfl⟩)

theorem startsWith_push_protected {path root : AbsolutePathBuf} {name : Text}
    (safe : name ∈ protectedMetadataPathNames) :
    path.startsWith (root.push name) = true ↔ root.names ++ [name] <+: path.names := by
  rw [AbsolutePathBuf.startsWith_iff, names_push_protected root safe]

theorem push_protected_below (root : AbsolutePathBuf) {name : Text}
    (safe : name ∈ protectedMetadataPathNames) :
    (root.push name).startsWith root = true ∧ root.push name ≠ root := by
  have names := names_push_protected root safe
  refine ⟨?_, fun same => ?_⟩
  · rw [AbsolutePathBuf.startsWith_iff, names]
    exact prefix_append ..
  · rw [same] at names
    have length := congrArg List.length names
    simp at length

/-! ## Paths that can be written -/

variable (path : AbsolutePathBuf)

/-- A missing metadata path of the workspace around the path belongs to an existing root. -/
def AutoMetadataHasRoot : Prop :=
  ∀ subpath ∈ missingAutoMetadataSubpaths host policy cwd, path.startsWith subpath = true →
    ∃ root ∈ existingWritableRoots lib host policy cwd, ∃ name ∈ protectedMetadataPathNames,
      subpath = root.root.push name

/-- A grant with the path in one of its protected directories exists and is read alike, or the
directory is reopened. -/
def ProtectingRootsExist : Prop :=
  ∀ entry ∈ policy.entries, entry.access = .write →
    ∀ uri ∈ resolvedPaths lib (localPolicyContext lib host.toLocalHost cwd) entry.path,
    ∀ name ∈ protectedMetadataPathNames, ∀ protectedPath,
      PathUri.joinDescendant lib uri name = .ok protectedPath →
      PathUri.startsWith lib (PathUri.fromAbsPath lib path) protectedPath = true →
      Reopened lib (localEntries lib host.toLocalHost policy cwd) (PathUri.fromAbsPath lib path)
          protectedPath ∨
        ¬ ResolvesElsewhere host.toLocalHost entry.path ∧
          ∃ root, resolveEntryPath lib host.toLocalHost entry.path cwd = some root ∧
            host.pathExists root = true

theorem explicit_of_missingAutoMetadata (sub : AbsolutePathBuf)
    (mem : sub ∈ missingAutoMetadataSubpaths host policy cwd) :
    hasExplicitResolvedPathEntry (resolvedEntriesWithCwd lib host.toLocalHost policy cwd) sub =
    true ∧ host.pathExists sub = false := by
  obtain ⟨entry, entryMem, found⟩ := mem_filterMap.mp mem
  unfold missingAutoMetadataSubpath at found
  split at found
  next own access isPath =>
    dsimp only at found
    split at found
    next isMissing =>
      cases found
      rw [Bool.and_eq_true, Bool.not_eq_true'] at isMissing
      refine ⟨any_eq_true.mpr ⟨⟨_, entry.access⟩, mem_filterMap.mpr
        ⟨entry, entryMem, ?_⟩, beq_self_eq_true _⟩, isMissing.2⟩
      rw [isPath]
      rfl
    · cases found
  · cases found

theorem eq_of_above_missing_metadata (root other : AbsolutePathBuf) (name : Text)
    (safe : name ∈ protectedMetadataPathNames) (rootExists : host.pathExists root = true)
    (missing : host.pathExists (other.push name) = false)
    (belowRoot : (other.push name).startsWith root = true)
    (asDeep : pathDepth other ≤ pathDepth root) : root = other := by
  have notLonger : root.names.length ≤ other.names.length := by
    by_contra longer
    have asLong : (other.push name).names.length ≤ root.names.length := by
      rw [names_push_protected other safe, length_append]
      exact Nat.not_le.mp longer
    rw [eq_of_startsWith belowRoot asLong, rootExists] at missing
    cases missing
  have otherAbove := (push_protected_below other safe).1
  exact eq_of_startsWith (startsWith_of_length_le otherAbove
    belowRoot (Nat.le_of_succ_le_succ asDeep)) notLonger

section

variable {lib host policy cwd options} (plain : HasPlainPlan lib host policy)

include plain

/-- A metadata path of a root that an entry keeps read-only is one of its protected names. -/
theorem reported_of_explicit {root : WritableRoot}
    (mem : root ∈ getWritableRootsWithCwd lib host.toLocalHost policy cwd) {name : Text}
    (safe : name ∈ protectedMetadataPathNames) (explicit : hasExplicitResolvedPathEntry
    (resolvedEntriesWithCwd lib host.toLocalHost policy cwd) (root.root.push name) = true)
    (readOnly : root.root.push name ∈ root.readOnlySubpaths) :
    name ∈ root.protectedMetadataNames := by
  by_contra notReported
  have canWrite := canWrite_of_not_protected plain.noSymlinks mem safe notReported
  have joined : host.toLocalHost.join root.root name = root.root.push name := by
    refine ext_names ?_
    rw [names_join_protected host.toLocalHost root.root name safe,
      names_push_protected root.root safe]
  rcases mem_readOnlySubpaths_cases plain.noSymlinks mem
    readOnly with ⟨notExplicit, _⟩ | ⟨cannot, _⟩
  · rw [explicit] at notExplicit
    cases notExplicit
  · rw [joined, cannot] at canWrite
    cases canWrite

section

variable {path : AbsolutePathBuf} {pre after : List WritableRoot} {root : WritableRoot}
  (split : sortedWritableRoots lib host policy cwd = pre ++ root :: after)
  (later : ∀ other ∈ after, path.startsWith other.root = false)

include split later

theorem reportsWritable_of_block (below : path.startsWith root.root = true)
    (metadata : AutoMetadataHasRoot lib host policy cwd path)
    (nested : ∀ other ∈ nestedUnreadableArgs lib host policy cwd options
    (allowedWritePaths lib host policy cwd) root.root, other.covers path = false)
    (bare : ∀ sub ∈ subpathsToMount lib host policy cwd options root,
    sub.startsWith root.root = true → path.startsWith sub = false) : ReportsWritable root path := by
  have isThere := existing_of_sorted split
  obtain ⟨mem, rootExists⟩ :=
    (mem_existingWritableRoots plain.notFull).mp isThere
  have notProtected : ∀ name ∈ root.protectedMetadataNames,
      ¬ root.root.names ++ [name] <+: path.names := by
    intro name reported isIn
    have safe := isProtected_of_reported plain.noSymlinks mem reported
    have starts := (startsWith_push_protected safe).mpr isIn
    rw [bare _ ((mem_subpathsToMount root _).mpr
      (.inr ⟨name, reported, rfl⟩)) (push_protected_below root.root safe).1] at starts
    cases starts
  refine ⟨below, fun sub readOnly belowRoot => ?_, notProtected⟩
  by_contra isIn
  have isIn : path.startsWith sub = true := by simpa using isIn
  by_cases unread : sub ∈ unreadableRoots lib host policy cwd options
  · rw [not_below_nested plain.tree path plain.notFull isThere nested unread belowRoot] at isIn
    cases isIn
  · by_cases isMetadata : sub ∈ missingAutoMetadataSubpaths host policy cwd
    · -- the root is the one that the missing metadata belongs to, and it protects the name
      obtain ⟨other, otherExisting, name, safe, rfl⟩ := metadata sub isMetadata isIn
      obtain ⟨explicit, missing⟩ :=
        explicit_of_missingAutoMetadata lib host policy cwd _ isMetadata
      have same := eq_of_above_missing_metadata host root.root other.root name safe
        rootExists missing belowRoot (deepest_of_sorted split later otherExisting
        (startsWith_trans isIn (push_protected_below other.root safe).1))
      rw [← same] at readOnly explicit isIn
      exact notProtected name (reported_of_explicit plain mem safe explicit readOnly)
        ((startsWith_push_protected safe).mp isIn)
    · rw [bare sub ((mem_subpathsToMount root sub).mpr
        (.inl ⟨readOnly, unread, isMetadata⟩)) belowRoot] at isIn
      cases isIn

theorem innerMetadataReopened_of_block
    (rootOrdinary : isFallback (fromAbsPath lib root.root) = false)
    (writes : resolveAccess lib policy (fromAbsPath lib path)
    (localPolicyContext lib host.toLocalHost cwd) = .write)
    (guards : ProtectingRootsExist lib host policy cwd path) :
    InnerMetadataReopened lib host.toLocalHost policy cwd root.root path := by
  intro entry mem canWrite below notAbove name safe guarded joined isIn
  have isPlain := isPlainName_of_protected safe
  obtain ⟨cwdPlain, ordinary, lex, _⟩ :=
    governs_of_resolveAccess (restricted_of_not_fullDisk plain.notFull)
    (by rw [writes]; exact fun denied => by cases denied)
  have loc := (fromAbsPath_denotes ordinary).2
  have notFallback : ¬ isFallback entry.1 = true := by
    intro isFallback
    obtain ⟨error, failed⟩ := joinDescendant_fallback lib isPlain isFallback
    rw [failed] at joined
    cases joined
  obtain ⟨place, entryLoc⟩ :=
    Option.isSome_iff_exists.mp ((lex entry mem).resolve_left notFallback)
  obtain ⟨means, denotes, rfl, own, ownMem, ownAccess, isPath, read⟩ :=
    exists_entry_of_localEntry cwdPlain plain.wellFormed mem entryLoc
  have isWrite : entry.2 = .write := beq_iff_eq.mp canWrite
  obtain ⟨dir, directoryJoined, _, dirLoc⟩ :=
    joinDescendant_name isPlain denotes.1 entryLoc
  cases joined.symm.trans directoryJoined
  obtain ⟨_, sameDirectory, insideDirectory⟩ :=
    (PathUri.startsWith_iff loc).mp isIn
  cases dirLoc.symm.trans sameDirectory
  have pathBelow := placeOf_within.mp (insideDirectory.trans ((placeOf means).child_within name))
  rcases guards own ownMem (ownAccess.trans isWrite) entry.1 isPath name safe
    guarded joined isIn with reopened | ⟨alike, existing, isLocal, pathExists⟩
  · exact reopened
  · cases (read alike).symm.trans isLocal
    have given : (placeOf means, .write) ∈ localRules lib host.toLocalHost policy cwd :=
      mem_rules.mpr ⟨entry.1, isWrite ▸ mem, entryLoc⟩
    rcases canWriteLocal_or_hasDeeperWriteRoot path means
      plain.notFull plain.wellFormed writes pathBelow given with canWriteRoot | deeper
    · -- the grant is a deeper writable root, and the last block would be that of this root
      exfalso
      obtain ⟨other, otherMem, rfl⟩ := exists_writableRoot_of_entry lib host.toLocalHost policy
        cwd plain.noSymlinks means plain.notFull
        (mem_filterMap.mpr ⟨own, ownMem, by rw [isLocal, ownAccess, isWrite]; rfl⟩)
        canWriteRoot
      have deepest := deepest_of_sorted split later ((mem_existingWritableRoots plain.notFull).mpr
        ⟨otherMem, pathExists⟩) pathBelow
      have rootLoc := (fromAbsPath_denotes rootOrdinary).2
      obtain ⟨_, sameRoot, within⟩ :=
        (PathUri.startsWith_iff entryLoc).mp below
      cases rootLoc.symm.trans sameRoot
      have same := eq_of_startsWith (placeOf_within.mp within) (Nat.le_of_succ_le_succ deepest)
      rw [(PathUri.startsWith_iff rootLoc).mpr ⟨_, entryLoc, placeOf_within.mpr
        (same ▸ startsWith_refl _)⟩] at notAbove
      cases notAbove
    · exact (reopened_iff _ loc dirLoc insideDirectory).mpr deeper

end

variable {ops : List BwrapOperation}

omit plain in
theorem governing_of_makesWritable {path : AbsolutePathBuf}
    (writable : makesWritable ops path = true) :
    ∃ mount, governing (covers path) ops = some (.bind mount) := by
  unfold makesWritable at writable
  split at writable
  next mount gov =>
    exact ⟨mount, gov⟩
  · cases writable

theorem canWriteLocalPath_of_makesWritable
    (built : createFilesystemArgs lib host policy cwd options = .ok ops)
    (path : AbsolutePathBuf) (ordinary : isFallback (fromAbsPath lib path) = false)
    (alike : NarrowsAlike lib host.toLocalHost policy cwd path)
    (metadata : AutoMetadataHasRoot lib host policy cwd path)
    (guards : ProtectingRootsExist lib host policy cwd path)
    (writable : makesWritable ops path = true) :
    canWriteLocalPathWithCwd lib host.toLocalHost policy path.toText cwd = true := by
  obtain ⟨mount, gov⟩ := governing_of_makesWritable writable
  rcases governing_cases ops path _ built gov rfl with
    ⟨before, root, after, block, split, blockBuilt, inBlock, later⟩ | ⟨base, baseBuilt, inBase, _⟩
  · have isThere := existing_of_sorted split
    have mem := ((mem_existingWritableRoots plain.notFull).mp isThere).1
    obtain ⟨nested, ⟨isBind, bare⟩ | ⟨_, _, isRead⟩ | ⟨_, isRead, _⟩⟩ :=
      governing_block plain.tree plain.notFull isThere blockBuilt inBlock rfl
    · cases isBind
      have below : path.startsWith root.root = true := (of_governing inBlock).2
      have reports := reportsWritable_of_block plain split later below metadata nested bare
      have writes := resolveAccess_of_reportsWritable
        plain.noSymlinks plain.wellFormed ordinary alike mem reports
      have inner := innerMetadataReopened_of_block plain split later
        (fromAbsPath_ordinary_of_startsWith lib path root.root below ordinary) writes guards
      rw [canWriteLocalPathWithCwd, LocalHost.resolveCandidatePath_toText]
      exact canWritePath_of_reportsWritable plain.noSymlinks
        plain.wellFormed ordinary alike mem inner reports
    · cases isRead
    · cases isRead
  · rcases of_mem_baseArgs baseBuilt inBase rfl with
      ⟨isRead, _⟩ | ⟨_, _, isRead⟩
    · cases isRead
    · cases isRead

/-! ## Paths that can be read -/

variable (lib host policy cwd) in
/-- A denied path around the path exists, or an existing writable root contains it. -/
def DeniedPathsMounted : Prop :=
  ∀ unreadableRoot ∈ getUnreadableRootsWithCwd lib host.toLocalHost policy cwd,
    path.startsWith unreadableRoot = true →
    host.pathExists unreadableRoot = true ∨
      ∃ root ∈ existingWritableRoots lib host policy cwd,
        unreadableRoot.startsWith root.root = true

variable (lib host policy cwd) in
/-- With full read access the rules resolve every ordinary path. -/
def ResolvesFullRead : Prop :=
  policy.hasFullDiskReadAccess = true →
    PathUri.isFallback (PathUri.fromAbsPath lib cwd) = false ∧
      HasLexicalRoots lib (localEntries lib host.toLocalHost policy cwd)

omit plain in
theorem subpathsToMount_cases (noSymlinks : host.HasNoSymlinks) {root : WritableRoot}
    (mem : root ∈ getWritableRootsWithCwd lib host.toLocalHost policy cwd)
    {subpath : AbsolutePathBuf}
    (mount : subpath ∈ subpathsToMount lib host policy cwd options root) :
    (subpath.startsWith root.root = true ∧ subpath ≠ root.root) ∨
    IsOuterGitdir host.toLocalHost root.root subpath := by
  rcases (mem_subpathsToMount root subpath).mp mount with
    ⟨readOnly, _⟩ | ⟨name, reported, rfl⟩
  · exact of_mem_readOnlySubpaths noSymlinks root mem subpath readOnly
  · exact .inl (push_protected_below root.root (isProtected_of_reported noSymlinks mem reported))

theorem below_root_of_block {path : AbsolutePathBuf} {root : WritableRoot} {op : BwrapOperation}
    (mem : root ∈ getWritableRootsWithCwd lib host.toLocalHost policy cwd)
    (notRegistry : path.startsWith host.registryRoot = false)
    (out : OutsideGitdirs lib host.toLocalHost policy cwd path)
    (covers : op.covers path = true) (shown : op = .bind root.root ∨
    (∃ sub ∈ subpathsToMount lib host policy cwd options root, op = .roBind sub) ∨
    ∃ mount, op = .roBind mount ∧ mount.startsWith host.registryRoot = true) :
    path.startsWith root.root = true := by
  rcases shown with rfl | ⟨sub, isMounted, rfl⟩ | ⟨mount, rfl, inRegistry⟩
  · exact covers
  · rcases subpathsToMount_cases plain.noSymlinks mem isMounted with ⟨below, _⟩ | isOuter
    · exact startsWith_trans covers below
    · have bare := out root mem sub isOuter
      rw [show path.startsWith sub = true from covers] at bare
      cases bare
  · rw [startsWith_trans covers inRegistry] at notRegistry
    cases notRegistry

theorem not_below_denied_of_base {path : AbsolutePathBuf}
    (mount : DeniedPathsMounted lib host policy cwd path)
    (ancestors : ∀ other ∈ unreadableAncestorArgs lib host policy cwd options
    (allowedWritePaths lib host policy cwd), other.covers path = false)
    (nested : ∀ root ∈ existingWritableRoots lib host policy cwd,
    ∀ other ∈ nestedUnreadableArgs lib host policy cwd options
    (allowedWritePaths lib host policy cwd) root.root, other.covers path = false)
    (rootless : ∀ other ∈ rootlessUnreadableArgs lib host policy cwd options
    (allowedWritePaths lib host policy cwd), other.covers path = false)
    {denied : AbsolutePathBuf}
    (mem : denied ∈ getUnreadableRootsWithCwd lib host.toLocalHost policy cwd) :
    path.startsWith denied = false := by
  by_contra isIn
  have isIn : path.startsWith denied = true := by simpa using isIn
  have unread : denied ∈ unreadableRoots lib host policy cwd options :=
    (mem_unreadableRoots plain.noGlobs _).mpr mem
  by_cases within : ∃ root ∈ existingWritableRoots lib host policy cwd,
    denied.startsWith root.root = true
  · obtain ⟨root, isThere, below⟩ := within
    rw [not_below_nested plain.tree path plain.notFull isThere
      (nested root isThere) unread below] at isIn
    cases isIn
  · have pathExists := (mount denied mem isIn).resolve_right within
    have notWithin : ((allowedWritePaths lib host policy cwd).any fun root =>
        denied.startsWith root) = false := by
      rw [any_eq_false]
      intro root isAllowed below
      obtain ⟨writable, isThere, rfl⟩ := mem_map.mp isAllowed
      exact within ⟨writable, isThere, below⟩
    cases above : (allowedWritePaths lib host policy cwd).any fun root =>
      root.startsWith denied with
    | true =>
      obtain ⟨op, masked, covers⟩ : ∃ op ∈ unreadableAncestorArgs lib host policy cwd
          options (allowedWritePaths lib host policy cwd), op.covers path = true :=
        exists_covering_masks plain.tree _ _ denied path
          (mem_filter.mpr ⟨unread, by simp only [notWithin, above]; rfl⟩) isIn
          (.inl pathExists)
      rw [ancestors op masked] at covers
      cases covers
    | false =>
      obtain ⟨op, masked, covers⟩ : ∃ op ∈ rootlessUnreadableArgs lib host policy cwd
          options (allowedWritePaths lib host policy cwd), op.covers path = true := by
        refine exists_covering_masks plain.tree _ _ denied path
          (mem_filter.mpr ⟨unread, ?_⟩) isIn (.inl pathExists)
        rw [Bool.not_eq_true', any_eq_false]
        intro root isAllowed related
        rw [Bool.or_eq_true] at related
        exact related.elim (any_eq_false.mp notWithin root isAllowed)
          (any_eq_false.mp above root isAllowed)
      rw [rootless op masked] at covers
      cases covers

omit plain in
theorem governing_of_makesReadable {path : AbsolutePathBuf}
    (readable : makesReadable ops path = true) :
    ∃ op, governing (covers path) ops = some op ∧ op.hides = false := by
  unfold makesReadable at readable
  split at readable
  next op gov =>
    exact ⟨op, gov, by simpa using readable⟩
  · cases readable

theorem mem_readableRoots {root : AbsolutePathBuf}
    (mem : root ∈ readableRoots lib host policy cwd) :
    canReadLocalPathWithCwd lib host.toLocalHost policy root.toText cwd = true := by
  rw [readableRoots, mem_sortedPaths, plain.noDefaults, if_neg Bool.false_ne_true,
    append_nil] at mem
  exact mem_getReadableRootsWithCwd lib host.toLocalHost policy cwd plain.noSymlinks root mem

theorem canReadLocalPath_of_makesReadable
    (built : createFilesystemArgs lib host policy cwd options = .ok ops)
    (path : AbsolutePathBuf) (ordinary : isFallback (fromAbsPath lib path) = false)
    (alike : NarrowsAlike lib host.toLocalHost policy cwd path)
    (notRegistry : path.startsWith host.registryRoot = false)
    (out : OutsideGitdirs lib host.toLocalHost policy cwd path)
    (denied : DeniedPathsMounted lib host policy cwd path)
    (found : ResolvesFullRead lib host policy cwd) (readable : makesReadable ops path = true) :
    canReadLocalPathWithCwd lib host.toLocalHost policy path.toText cwd = true := by
  have restricted := restricted_of_not_fullDisk plain.notFull
  obtain ⟨op, gov, shows⟩ := governing_of_makesReadable readable
  rw [canReadLocal_iff]
  intro isDenied
  rcases governing_cases ops path op built gov shows
    with ⟨before, root, after, block, split, blockBuilt, inBlock, _⟩ |
    ⟨base, baseBuilt, inBase, covers, ancestors, nested, rootless⟩
  · have isThere := existing_of_sorted split
    have mem := ((mem_existingWritableRoots plain.notFull).mp isThere).1
    obtain ⟨nested, shown⟩ :=
      governing_block plain.tree plain.notFull isThere blockBuilt inBlock shows
    have below := below_root_of_block plain mem notRegistry out (of_governing inBlock).2
      (shown.imp_left And.left)
    have rootWrites := resolveAccess_of_canWriteLocal
      (of_mem_getWritableRootsWithCwd plain.noSymlinks mem).2.2.1
    obtain ⟨deniedRoot, unread, isIn, belowRoot⟩ :=
      exists_unreadableRoot plain.noSymlinks restricted plain.wellFormed
      ordinary alike below (by rw [rootWrites]; exact fun same => by cases same) isDenied
    rw [not_below_nested plain.tree path plain.notFull isThere
      nested ((mem_unreadableRoots plain.noGlobs _).mpr unread) belowRoot] at isIn
    cases isIn
  · rcases of_mem_baseArgs baseBuilt inBase shows with
      ⟨_, full⟩ | ⟨root, isReadable, rfl⟩
    · obtain ⟨cwdPlain, lex⟩ := found full
      exact resolveAccess_of_fullDiskRead lib host.toLocalHost policy cwd path restricted full
        cwdPlain lex ordinary isDenied
    · obtain ⟨deniedRoot, unread, isIn, _⟩ :=
        exists_unreadableRoot plain.noSymlinks restricted plain.wellFormed ordinary alike covers
        (canReadLocal_iff.mp (mem_readableRoots plain isReadable)) isDenied
      rw [not_below_denied_of_base plain denied ancestors nested rootless unread] at isIn
      cases isIn

/-! ## Writable roots -/

theorem root_not_unreadable {root : WritableRoot}
    (mem : root ∈ getWritableRootsWithCwd lib host.toLocalHost policy cwd) :
    root.root ∉ getUnreadableRootsWithCwd lib host.toLocalHost policy cwd := by
  intro unread
  have canWrite := (of_mem_getWritableRootsWithCwd plain.noSymlinks mem).2.2.1
  have cannotRead := ((mem_getUnreadableRootsWithCwd plain.noSymlinks).mp unread).2.2.1
  rw [canReadLocal_iff.mpr (by
    rw [resolveAccess_of_canWriteLocal canWrite]
    exact fun denied => by cases denied)] at cannotRead
  cases cannotRead

theorem bind_of_mem_block {root other : WritableRoot}
    {block : List BwrapOperation} {op : BwrapOperation}
    (rootExists : host.pathExists root.root = true)
    (notDaemon : root.root.startsWith host.daemonDirectory = false)
    (notRegistry : root.root.startsWith host.registryRoot = false)
    (out : OutsideGitdirs lib host.toLocalHost policy cwd root.root)
    (otherMem : other ∈ getWritableRootsWithCwd lib host.toLocalHost policy cwd)
    (asDeep : pathDepth root.root ≤ pathDepth other.root)
    (built : writableRootArgs lib host policy cwd options (allowedWritePaths lib host policy cwd)
    other = .ok block) (inBlock : op ∈ block) (covers : op.covers root.root = true) :
    op = .bind other.root := by
  obtain ⟨mask, readOnlyOf, masked, readOnlyBuilt, rfl⟩ :=
    of_writableRootArgs_eq_ok built
  obtain ⟨mount, isTarget, starts⟩ := (covers_iff _ _).mp covers
  have notMissing : host.pathExists mount ≠ false := by
    rw [plain.tree _ _ starts rootExists]
    exact Bool.noConfusion
  have notDaemonDirectory : mount ≠ host.daemonDirectory := by
    rintro rfl
    rw [starts] at notDaemon
    cases notDaemon
  have atOther : mount.startsWith other.root = true → mount = other.root := fun below =>
    eq_of_startsWith below ((length_le_of_startsWith starts).trans (Nat.le_of_succ_le_succ asDeep))
  simp only [mem_append, mem_singleton] at inBlock
  rcases inBlock with ((((inParents | isBind) | inMask) | inReadOnly) | inRegistry) | inNested
  · have isNone := target_of_mem_maskedParentArgs inParents
    rw [isNone.2] at isTarget
    cases isTarget
  · exact isBind
  · exact absurd (((of_daemonSocketMask_eq_ok masked).2 op inMask).2 mount
      isTarget) notDaemonDirectory
  · obtain ⟨sub, subpathMem, isIn⟩ := mem_flatMap.mp inReadOnly
    rcases (isReadOnlyOperation_of_mem (readOnlyBuilt sub subpathMem) isIn).2 mount
      isTarget with rfl | missing | isDaemon
    · rcases subpathsToMount_cases plain.noSymlinks otherMem subpathMem with ⟨below,
        notOther⟩ | isOuter
      · exact absurd (atOther below) notOther
      · rw [out other otherMem mount isOuter] at starts
        cases starts
    · exact absurd missing notMissing
    · exact absurd isDaemon notDaemonDirectory
  · obtain ⟨known, rfl, isIn, _⟩ := mem_registryArgs inRegistry
    cases isTarget
    rw [startsWith_trans starts isIn] at notRegistry
    cases notRegistry
  · rcases (of_mem_masks inNested).2 mount isTarget with isNested | missing
    · obtain ⟨unread, below⟩ := mem_filter.mp isNested
      rw [mem_unreadableRoots plain.noGlobs, atOther below] at unread
      exact absurd unread (root_not_unreadable plain otherMem)
    · exact absurd missing notMissing

theorem rootless_not_covers {root : WritableRoot}
    (isThere : root ∈ existingWritableRoots lib host policy cwd) (op : BwrapOperation)
    (mem : op ∈ rootlessUnreadableArgs lib host policy cwd options
    (allowedWritePaths lib host policy cwd)) : op.covers root.root = false := by
  by_contra covers
  obtain ⟨mount, isTarget, starts⟩ :=
    (covers_iff _ _).mp (by simpa using covers)
  rcases (of_mem_masks mem).2 mount isTarget with isRootless | missing
  · have unrelated := (mem_filter.mp isRootless).2
    rw [Bool.not_eq_true', any_eq_false] at unrelated
    refine unrelated root.root (mem_allowedWritePaths root isThere) ?_
    rw [starts, Bool.or_true]
  · rw [plain.tree _ _ starts ((mem_existingWritableRoots plain.notFull).mp isThere).2]
      at missing
    cases missing

theorem makesWritable_writableRoot
    (built : createFilesystemArgs lib host policy cwd options = .ok ops)
    (root : WritableRoot) (mem : root ∈ getWritableRootsWithCwd lib host.toLocalHost policy cwd)
    (rootExists : host.pathExists root.root = true)
    (notRegistry : root.root.startsWith host.registryRoot = false)
    (notDistro : options.maskWslgDistro = true → root.root.startsWith wslgDistroRoot = false)
    (out : OutsideGitdirs lib host.toLocalHost policy cwd root.root) :
    makesWritable ops root.root = true := by
  have isThere :=
    (mem_existingWritableRoots plain.notFull).mpr ⟨mem, rootExists⟩
  have isSorted := (mem_sortedWritableRoots root).mpr isThere
  obtain ⟨base, blockOf, _, blocksBuilt, rfl⟩ :=
    of_createFilesystemArgs_eq_ok built
  obtain ⟨mask, readOnlyOf, masked, _, block⟩ :=
    of_writableRootArgs_eq_ok (blocksBuilt root isSorted)
  have bound : bind root.root ∈ blockOf root := by
    rw [block]
    simp
  have isBound : bind root.root ∈ (sortedWritableRoots lib host policy cwd).flatMap blockOf :=
    mem_flatMap.mpr ⟨root, isSorted, bound⟩
  have coversRoot : (bind root.root).covers root.root = true :=
    startsWith_refl root.root
  -- nothing after the blocks covers the root
  have notDistroMask : ∀ op ∈ wslgDistroArgs lib host policy cwd options
      (allowedWritePaths lib host policy cwd), op.covers root.root = false := by
    intro op inDistro
    by_contra covers
    obtain ⟨mount, isTarget, starts⟩ :=
      (covers_iff _ _).mp (by simpa using covers)
    obtain ⟨rfl, masks⟩ :=
      (of_mem_wslgDistroArgs inDistro).2 mount isTarget
    rw [notDistro masks] at starts
    cases starts
  rw [makesWritable, governing_append_of_not_covers _ _ notDistroMask,
    governing_append_of_not_covers _ _ (rootless_not_covers plain isThere)]
  obtain ⟨op, gov⟩ := exists_governing (mem_append_right
    (base ++ unreadableAncestorArgs lib host policy cwd options
    (allowedWritePaths lib host policy cwd)) isBound) coversRoot
  rw [gov]
  rcases governing_append_cases gov with inBlocks | ⟨_, bare⟩
  · obtain ⟨before, other, after, split, inBlock, later⟩ := governing_flatMap_cases blockOf inBlocks
    have otherExisting := existing_of_sorted split
    have asDeep : pathDepth root.root ≤ pathDepth other.root :=
      deepest_of_sorted split (fun next isAfter => by
          obtain ⟨_, _, _, _, nextBlock⟩ :=
            of_writableRootArgs_eq_ok (blocksBuilt next (by rw [split]; simp [isAfter]))
          exact later next isAfter (.bind next.root) (by rw [nextBlock]; simp))
        isThere (startsWith_refl _)
    rw [bind_of_mem_block plain rootExists
      (of_daemonSocketMask_eq_ok masked).1 notRegistry out
      ((mem_existingWritableRoots plain.notFull).mp otherExisting).1 asDeep
      (blocksBuilt other (by rw [split]; simp)) (of_governing inBlock).1 (of_governing inBlock).2]
  · rw [bare _ isBound] at coversRoot
    cases coversRoot

end

/-- A mount plan grants no more than its policy, and it keeps every existing root writable. -/
theorem createFilesystemArgs_within_policy (plain : HasPlainPlan lib host policy)
    (operations : List BwrapOperation)
    (built : createFilesystemArgs lib host policy cwd options = .ok operations) :
    (∀ path, PathUri.isFallback (PathUri.fromAbsPath lib path) = false →
        NarrowsAlike lib host.toLocalHost policy cwd path →
        AutoMetadataHasRoot lib host policy cwd path →
        ProtectingRootsExist lib host policy cwd path → makesWritable operations path = true →
        canWriteLocalPathWithCwd lib host.toLocalHost policy path.toText cwd = true) ∧
      (∀ path, PathUri.isFallback (PathUri.fromAbsPath lib path) = false →
        NarrowsAlike lib host.toLocalHost policy cwd path →
        path.startsWith host.registryRoot = false →
        OutsideGitdirs lib host.toLocalHost policy cwd path →
        DeniedPathsMounted lib host policy cwd path → ResolvesFullRead lib host policy cwd →
        makesReadable operations path = true →
        canReadLocalPathWithCwd lib host.toLocalHost policy path.toText cwd = true) ∧
      ∀ root ∈ getWritableRootsWithCwd lib host.toLocalHost policy cwd,
        host.pathExists root.root = true → root.root.startsWith host.registryRoot = false →
        (options.maskWslgDistro = true → root.root.startsWith wslgDistroRoot = false) →
        OutsideGitdirs lib host.toLocalHost policy cwd root.root →
        makesWritable operations root.root = true := by
  refine ⟨?_, ?_, ?_⟩
  · exact canWriteLocalPath_of_makesWritable plain built
  · exact canReadLocalPath_of_makesReadable plain built
  · exact makesWritable_writableRoot plain built

end

/-! ## Instances -/

variable (nodes : List (List Text × FileNode))

def listedHost : SandboxHost where
  home := emptyHost.home
  tmpdir := none
  node := fun path => (nodes.find? fun listed => listed.1 == path.names).map Prod.snd
  normalizeEffectiveAbsolutePath := id
  daemonDirectory := ⟨["run".toList, "daemon".toList], by decide⟩
  registryRoot := ⟨["tmp".toList, "mounts".toList], by decide⟩
  scanGlobs := fun _ _ => []

def isTree : Bool :=
  nodes.all fun listed => (List.range (listed.1.length + 1)).all fun count =>
    nodes.any fun other => other.1 == listed.1.take count

theorem hasTree_listedHost (closed : isTree nodes = true) : HasTree (listedHost nodes) := by
  intro path base below pathExists
  have isListed : ∀ place : AbsolutePathBuf, (listedHost nodes).pathExists place = true ↔
      (nodes.any fun listed => listed.1 == place.names) = true := by
    intro place
    change ((nodes.find? fun listed => listed.1 == place.names).map Prod.snd).isSome = true ↔ _
    rw [Option.isSome_map, find?_isSome, any_eq_true]
  obtain ⟨listed, mem, same⟩ := any_eq_true.mp ((isListed path).mp pathExists)
  rw [beq_iff_eq] at same
  rw [AbsolutePathBuf.startsWith_iff, ← same] at below
  rw [isListed, prefix_iff_eq_take.mp below]
  refine all_eq_true.mp (all_eq_true.mp closed listed mem) _ (mem_range.mpr ?_)
  exact Nat.lt_succ_of_le below.length_le

def plainOptions : BwrapOptions where
  maskWslgDistro := false
  globScanMaxDepth := none

def directories (paths : List Text) : List (List Text × FileNode) :=
  (paths.flatMap fun path => (absolutePath path).names.inits).eraseDups.map fun names =>
    (names, .directory false)

def fileAt (path contents : Text) : List Text × FileNode :=
  ((absolutePath path).names, .file contents)

def localPath (path : Text) : FileSystemPath := filePath (absolutePath path).names

variable (host : SandboxHost) (policy : FileSystemSandboxPolicy)

/-- The plan of a plain policy is made and passes the check. -/
def PlanShows (cwd : AbsolutePathBuf)
    (options : BwrapOptions) (check : List BwrapOperation → Bool) : Prop :=
  HasPlainPlan PercentEncoding.urlLibrary host policy ∧
    ∃ operations, createFilesystemArgs PercentEncoding.urlLibrary host policy cwd options =
      .ok operations ∧ check operations = true

def passes (check : List BwrapOperation → Bool) : Except CodexErr (List BwrapOperation) → Bool
  | .ok operations => check operations
  | .error _ => false

theorem planShows_listedHost {nodes : List (List Text × FileNode)}
    {policy : FileSystemSandboxPolicy} {cwd : AbsolutePathBuf} {options : BwrapOptions}
    {check : List BwrapOperation → Bool}
    (plain : isTree nodes = true ∧ HasWellFormedPaths urlLibrary policy ∧
    policy.hasFullDiskWriteAccess urlLibrary = false ∧ HasNoGlobs policy ∧
    policy.includePlatformDefaults = false)
    (passed : passes check (createFilesystemArgs urlLibrary (listedHost nodes) policy
    cwd options) = true) : PlanShows (listedHost nodes) policy cwd options check := by
  obtain ⟨closed, wellFormed, notFull, noGlobs, noDefaults⟩ := plain
  refine ⟨⟨fun _ => rfl, hasTree_listedHost nodes closed, wellFormed, notFull, noGlobs, noDefaults⟩,
    ?_⟩
  cases built : createFilesystemArgs urlLibrary (listedHost nodes) policy cwd options with
  | ok operations =>
    rw [built] at passed
    exact ⟨operations, rfl, passed⟩
  | error error =>
    rw [built] at passed
    cases passed

/-- Writable directories around a read-only one, and a readable directory around a denied one. -/
def layeredPolicy : FileSystemSandboxPolicy :=
  entriesPolicy [(localPath "/w".toList, .write), (localPath "/w/src".toList, .read),
    (localPath "/w/src/gen".toList, .write), (localPath "/s".toList, .read),
    (localPath "/s/d".toList, .deny)]

def layeredHost : SandboxHost := listedHost (directories ["/w/src/gen".toList, "/s/d".toList])

variable (path : AbsolutePathBuf)

theorem layeredPolicy_narrowsAlike : NarrowsAlike
    urlLibrary layeredHost.toLocalHost layeredPolicy workspaceDirectory path := by
  intro entry mem _ elsewhere
  have isFile : ∀ entry ∈ layeredPolicy.entries, ¬ ResolvesElsewhere layeredHost.toLocalHost
      entry.path := by
    simp only [layeredPolicy, entriesPolicy, map_cons, map_nil, forall_mem_cons,
      localPath, filePath, ResolvesElsewhere]
    exact ⟨id, id, id, id, id, fun _ impossible => by cases impossible⟩
  exact absurd elsewhere (isFile entry mem)

theorem layeredPolicy_outsideGitdirs : OutsideGitdirs
    urlLibrary layeredHost.toLocalHost layeredPolicy workspaceDirectory path := by
  intro root mem gitdir isOuter
  have noGitdirs : ∀ root ∈ getWritableRootsWithCwd urlLibrary
      layeredHost.toLocalHost layeredPolicy workspaceDirectory,
      layeredHost.resolveGitdirFromFile (layeredHost.join root.root LocalHost.dotGit) = none := by
    decide
  rw [IsOuterGitdir, noGitdirs root mem] at isOuter
  cases isOuter.1

theorem generated_source_is_mounted :
    ∃ operations, createFilesystemArgs PercentEncoding.urlLibrary layeredHost layeredPolicy
        workspaceDirectory plainOptions = .ok operations ∧
      makesWritable operations (absolutePath "/w/src/gen/x".toList) = true ∧
      canWriteLocalPathWithCwd PercentEncoding.urlLibrary layeredHost.toLocalHost layeredPolicy
        (absolutePath "/w/src/gen/x".toList).toText workspaceDirectory = true ∧
      makesReadable operations (absolutePath "/s/f".toList) = true ∧
      canReadLocalPathWithCwd PercentEncoding.urlLibrary layeredHost.toLocalHost layeredPolicy
        (absolutePath "/s/f".toList).toText workspaceDirectory = true ∧
      makesWritable operations (absolutePath "/w/src/gen".toList) = true := by
  have shown : PlanShows layeredHost layeredPolicy workspaceDirectory plainOptions
      (fun operations => makesWritable operations (absolutePath "/w/src/gen/x".toList) &&
        makesReadable operations (absolutePath "/s/f".toList)) :=
    planShows_listedHost (by decide) (by decide)
  have notProtected : ∀ entry ∈ layeredPolicy.entries,
      ∀ uri ∈ resolvedPaths urlLibrary (localPolicyContext
        urlLibrary layeredHost.toLocalHost workspaceDirectory) entry.path,
      ∀ name ∈ protectedMetadataPathNames,
        ((joinDescendant urlLibrary uri name).toOption.all fun directory =>
          !PathUri.startsWith urlLibrary (fromAbsPath
            urlLibrary (absolutePath "/w/src/gen/x".toList)) directory) = true := by
    decide
  obtain ⟨plain, operations, built, passed⟩ := shown
  rw [Bool.and_eq_true] at passed
  obtain ⟨writes, reads, keepsRoots⟩ := createFilesystemArgs_within_policy
    urlLibrary layeredHost layeredPolicy workspaceDirectory plainOptions plain
    operations built
  refine ⟨operations, built, passed.1, ?_, passed.2, ?_, ?_⟩
  · refine writes _ (by decide) (layeredPolicy_narrowsAlike _) ?_ ?_ passed.1
    · have none : missingAutoMetadataSubpaths layeredHost layeredPolicy
          workspaceDirectory = [] := by decide
      intro subpath mem
      rw [none] at mem
      cases mem
    · intro entry mem _ uri isPath name isProtected directory joined inside
      have outside := notProtected entry mem uri isPath name isProtected
      rw [joined, Except.toOption, Option.all_some, inside] at outside
      cases outside
  · refine reads _ (by decide) (layeredPolicy_narrowsAlike _) (by decide)
      (layeredPolicy_outsideGitdirs _) ?_ ?_ passed.2
    · unfold DeniedPathsMounted
      decide
    · exact fun full => absurd full (by decide)
  · obtain ⟨root, mem, isGenerated⟩ : ∃ root ∈ getWritableRootsWithCwd
        urlLibrary layeredHost.toLocalHost layeredPolicy workspaceDirectory,
        root.root = absolutePath "/w/src/gen".toList := by decide
    rw [← isGenerated]
    exact keepsRoots root mem (by rw [isGenerated]; decide) (by rw [isGenerated]; decide)
      (fun masks => by cases masks) (layeredPolicy_outsideGitdirs _)

def isOutsideSandboxDirectories (path : AbsolutePathBuf) : Bool :=
  [deviceDirectory, absolutePath "/proc".toList, host.daemonDirectory, host.registryRoot].all
    fun directory => !path.startsWith directory

/-- The plan makes a path writable that the policy does not let be written. -/
def WritesBeyondPolicy (cwd path : AbsolutePathBuf) : Prop :=
  PlanShows host policy cwd plainOptions (makesWritable · path) ∧
    isOutsideSandboxDirectories host path = true ∧
    canWriteLocalPathWithCwd PercentEncoding.urlLibrary host.toLocalHost policy path.toText cwd =
      false

def ReadsBeyondPolicy (cwd path : AbsolutePathBuf) : Prop :=
  PlanShows host policy cwd plainOptions (makesReadable · path) ∧
    isOutsideSandboxDirectories host path = true ∧
    canReadLocalPathWithCwd PercentEncoding.urlLibrary host.toLocalHost policy path.toText cwd =
      false

def LosesWritableRoot (cwd path : AbsolutePathBuf) (options : BwrapOptions) : Prop :=
  PlanShows host policy cwd options (fun operations => !makesWritable operations path) ∧
    host.pathExists path = true ∧
    ∃ root ∈ getWritableRootsWithCwd PercentEncoding.urlLibrary host.toLocalHost policy cwd,
      root.root = path

/-- A plan lets write to the metadata of a missing root, to that of a workspace that is no root
itself, to a path without an ordinary URI, and below entries that are read in two ways.  It lets
read what the rules do not resolve, what is denied but missing or read in two ways, and the denied
directory of a `.git` file.  It takes away roots in the registry, in the view of the distribution
and in the directory of a `.git` file. -/
theorem plans_go_beyond_policy :
    WritesBeyondPolicy (listedHost (directories ["/w".toList]))
        (entriesPolicy [(localPath "/w".toList, .write), (localPath "/w/b".toList, .write)])
        workspaceDirectory (absolutePath "/w/b/.git/x".toList) ∧
      WritesBeyondPolicy (listedHost (directories ["/a/w".toList]))
        (entriesPolicy [(localPath "/a".toList, .write),
          (.special (.projectRoots (some ".git".toList)), .read)])
        (absolutePath "/a/w".toList) (absolutePath "/a/w/.git/x".toList) ∧
      WritesBeyondPolicy (listedHost (directories ["/s".toList]))
        (narrowedRootPolicy (localPath "/s".toList)) workspaceDirectory
        (absolutePath "/C:/x".toList) ∧
      WritesBeyondPolicy (listedHost (directories ["/w".toList]))
        (narrowedRootPolicy (.special .slashTmp)) workspaceDirectory
        (absolutePath "/tmp/x".toList) ∧
      WritesBeyondPolicy (listedHost (directories ["/w".toList]))
        (entriesPolicy [(localPath "/w".toList, .write),
          (.special (.projectRoots (some "~/x".toList)), .read)])
        workspaceDirectory (absolutePath "/w/~/x/f".toList) ∧
      WritesBeyondPolicy (listedHost (directories ["/w/~/x".toList]))
        (entriesPolicy [(localPath "/w".toList, .write),
          (.special (.projectRoots (some "~/x".toList)), .write)])
        workspaceDirectory (absolutePath "/w/~/x/.git/f".toList) ∧
      ReadsBeyondPolicy (listedHost (directories ["/C:".toList]))
        (entriesPolicy [(.special .root, .read)]) workspaceDirectory (absolutePath "/C:".toList) ∧
      ReadsBeyondPolicy (listedHost (directories ["/s".toList]))
        (entriesPolicy [(.special .root, .read)]) (absolutePath "/C:/w".toList)
        (absolutePath "/s".toList) ∧
      ReadsBeyondPolicy (listedHost (directories ["/s".toList]))
        (entriesPolicy [(.special .root, .read), (filePath ["a%2Fb".toList], .read)])
        workspaceDirectory (absolutePath "/s".toList) ∧
      ReadsBeyondPolicy (listedHost (directories ["/r".toList]))
        (entriesPolicy [(localPath "/r".toList, .read), (localPath "/r/d".toList, .deny)])
        workspaceDirectory (absolutePath "/r/d/x".toList) ∧
      ReadsBeyondPolicy (listedHost (fileAt "/tmp".toList [] :: directories ["/w".toList]))
        (entriesPolicy [(.special .root, .read), (.special .slashTmp, .deny)]) workspaceDirectory
        (absolutePath "/tmp".toList) ∧
      ReadsBeyondPolicy (listedHost (directories ["/w/~/x".toList]))
        (entriesPolicy [(localPath "/w".toList, .read),
          (.special (.projectRoots (some "~/x".toList)), .deny)])
        workspaceDirectory (absolutePath "/w/~/x".toList) ∧
      ReadsBeyondPolicy (listedHost (fileAt "/a/.git".toList "gitdir: /b/x/g".toList ::
          directories ["/a".toList, "/b/x/g".toList]))
        (entriesPolicy [(localPath "/b".toList, .write), (localPath "/b/x".toList, .deny),
          (localPath "/a".toList, .write)])
        workspaceDirectory (absolutePath "/b/x/g".toList) ∧
      LosesWritableRoot (listedHost (directories ["/tmp/mounts/s".toList]))
        (entriesPolicy [(localPath "/tmp/mounts/s".toList, .write)])
        workspaceDirectory (absolutePath "/tmp/mounts/s".toList) plainOptions ∧
      LosesWritableRoot (listedHost (directories ["/mnt/wslg/distro/s".toList]))
        (entriesPolicy [(localPath "/mnt/wslg/distro/s".toList, .write)])
        workspaceDirectory (absolutePath "/mnt/wslg/distro/s".toList)
        { plainOptions with maskWslgDistro := true } ∧
      LosesWritableRoot (listedHost (fileAt "/x/y/a/.git".toList "gitdir: /b/g".toList ::
          directories ["/x/y/a".toList, "/b/g/c".toList]))
        (entriesPolicy [(localPath "/b".toList, .write), (localPath "/b/g/c".toList, .write),
          (localPath "/x/y/a".toList, .write)])
        workspaceDirectory (absolutePath "/b/g/c".toList) plainOptions := by
  refine ⟨?_, ?_, ?_, ?_, ?_, ?_, ?_, ?_, ?_, ?_, ?_, ?_, ?_, ?_, ?_, ?_⟩ <;>
    exact ⟨planShows_listedHost (by decide) (by decide), by decide, by decide⟩

end CodexFormal.LinuxSandbox
