import CodexFormal.Permissions.LocalPolicy

/-!
# Writable roots

Platform sandboxes are told which directories can be written: each writable root
with the paths below it that stay read-only and the metadata names that are
protected directly below it.  A path that such a root reports as writable is one
that the policy lets be written, unless a writable root further down protects it.
-/

set_option autoImplicit false

namespace CodexFormal.Permissions

open Foundation Uri List PathUri AbsolutePathBuf FileSystemAccessMode Location.Within
open Patch (Text trim)
open PercentEncoding (urlLibrary)

structure WritableRoot where
  root : AbsolutePathBuf
  readOnlySubpaths : List AbsolutePathBuf
  protectedMetadataNames : List Text
deriving DecidableEq, Repr

namespace WritableRoot

def pathContainsProtectedMetadataName (writable : WritableRoot) (components : List Text) : Bool :=
  match components.dropPrefix? writable.root.names with
  | some (first :: _) => writable.protectedMetadataNames.contains first
  | _ => false

/-- Paths are compared component by component; steps to a parent are not resolved. -/
def isPathWritable (writable : WritableRoot) (path : Text) : Bool :=
  let components := AbsolutePathBuf.pathComponents path
  if path.head? ≠ some '/' ∨ ¬ writable.root.names.isPrefixOf components then false
  else if writable.readOnlySubpaths.any fun subpath => subpath.names.isPrefixOf components then
    false
  else !writable.pathContainsProtectedMetadataName components

end WritableRoot

/-! ## Read-only paths of a root -/

/-- The parts before and after the first colon. -/
def splitOnceAtColon (text : Text) : Option (Text × Text) :=
  match text.span (· ≠ ':') with
  | (before, ':' :: after) => some (before, after)
  | _ => none

namespace LocalHost

variable (host : LocalHost)

def dotGit : Text := ".git".toList

def dotAgents : Text := ".agents".toList

def dotCodex : Text := ".codex".toList

def isGitPointerFile (path : AbsolutePathBuf) : Bool :=
  host.isFile path && path.names.getLast? == some dotGit

def resolveGitdirFromFile (dotGitFile : AbsolutePathBuf) : Option AbsolutePathBuf :=
  match host.node dotGitFile with
  | some (.file contents) =>
    match splitOnceAtColon (trim contents) with
    | some (marker, target) =>
      if trim marker ≠ "gitdir".toList then none
      else if trim target = [] then none
      else match dotGitFile.parent with
        | none => none
        | some base =>
          let gitdir := host.resolvePathAgainstBase (trim target) base
          if host.pathExists gitdir then some gitdir else none
    | none => none
  | _ => none

variable (writableRoot : AbsolutePathBuf)

def gitSubpaths : List AbsolutePathBuf :=
  let topLevelGit := host.join writableRoot dotGit
  if host.isDir topLevelGit || host.isFile topLevelGit then
    (if host.isFile topLevelGit && host.isGitPointerFile topLevelGit then
      (host.resolveGitdirFromFile topLevelGit).toList
    else []) ++ [topLevelGit]
  else []

def defaultReadOnlySubpathsForWritableRoot (protectMissingDotCodex : Bool) : List AbsolutePathBuf :=
  let topLevelAgents := host.join writableRoot dotAgents
  let topLevelCodex := host.join writableRoot dotCodex
  (host.gitSubpaths writableRoot ++
    (if host.isDir topLevelAgents then [topLevelAgents] else []) ++
    (if protectMissingDotCodex || host.isDir topLevelCodex then [topLevelCodex] else [])).eraseDups

end LocalHost

/-! ## The roots of a policy -/

structure PreparedFileSystemEntry where
  entry : ResolvedFileSystemEntry
  effectivePath : AbsolutePathBuf
deriving DecidableEq, Repr

/-- The path of a narrower entry as it appears below the root. -/
def rawCarveoutPath (host : LocalHost) (root : AbsolutePathBuf)
    (rawWritableRoots : List AbsolutePathBuf) (path : AbsolutePathBuf) : Option AbsolutePathBuf :=
  if root.parent.isSome then
    if path = root then none
    else if path.startsWith root then some path
    else rawWritableRoots.findSome? fun rawRoot =>
      match path.stripPrefix rawRoot with
      | some (first :: rest) => some (host.join root (List.intercalate ['/'] (first :: rest)))
      | _ => none
  else none

def carveoutPath (host : LocalHost) (root : AbsolutePathBuf)
    (rawWritableRoots : List AbsolutePathBuf) (prepared : PreparedFileSystemEntry) :
    Option AbsolutePathBuf :=
  match rawCarveoutPath host root rawWritableRoots prepared.entry.path with
  | some path => some path
  | none =>
    if prepared.effectivePath = root ∨ ¬ prepared.effectivePath.startsWith root then none
    else some prepared.effectivePath

def hasExplicitResolvedPathEntry (entries : List ResolvedFileSystemEntry)
    (path : AbsolutePathBuf) : Bool :=
  entries.any fun entry => entry.path == path

namespace FileSystemSandboxPolicy

section

variable (lib : UrlLibrary) (host : LocalHost) (policy : FileSystemSandboxPolicy)
  (cwd : AbsolutePathBuf)

def protectedMetadataNamesForWritableRoot (root : AbsolutePathBuf)
    (rawWritableRoots : List AbsolutePathBuf) : List Text :=
  protectedMetadataPathNames.filter fun metadataName =>
    ((root :: rawWritableRoots).map fun above => host.join above metadataName).all
      fun metadataPath => !canWriteLocalPathWithCwd lib host policy metadataPath.toText cwd

/-- The entries whose own path has the access that they ask for. -/
def effectiveEntries : List ResolvedFileSystemEntry :=
  (resolvedEntriesWithCwd lib host policy cwd).filter fun entry =>
    entry.access.canWrite == canWriteLocalPathWithCwd lib host policy entry.path.toText cwd

variable (resolve : AbsolutePathBuf → AbsolutePathBuf)

def preparedEntries : List PreparedFileSystemEntry :=
  (effectiveEntries lib host policy cwd).map fun entry => ⟨entry, resolve entry.path⟩

def writableRootAt
    (prepared : List PreparedFileSystemEntry) (root : AbsolutePathBuf) : WritableRoot :=
  let rawWritableRoots := (prepared.filter fun other =>
    other.entry.access.canWrite && other.effectivePath == root).map fun other => other.entry.path
  let protectMissingDotCodex := resolve cwd == root
  { root := root
    readOnlySubpaths :=
      ((host.defaultReadOnlySubpathsForWritableRoot root protectMissingDotCodex).filter
          (fun path => !hasExplicitResolvedPathEntry (resolvedEntriesWithCwd lib host policy cwd)
            path) ++
        (prepared.filter fun other => !other.entry.access.canWrite).filterMap
          (carveoutPath host root rawWritableRoots)).eraseDups
    protectedMetadataNames :=
      protectedMetadataNamesForWritableRoot lib host policy cwd root rawWritableRoots }

def getWritableRootsWithCwdImpl : List WritableRoot :=
  if hasFullDiskWriteAccess lib policy then []
  else if !(resolvedEntriesWithCwd lib host policy cwd).any fun entry => entry.access.canWrite then
    []
  else if !(effectiveEntries lib host policy cwd).any fun entry => entry.access.canWrite then []
  else
    let prepared := preparedEntries lib host policy cwd resolve
    ((prepared.filter fun other => other.entry.access.canWrite).map fun other =>
      other.effectivePath).eraseDups.map
      (writableRootAt lib host policy cwd resolve prepared)

def getWritableRootsWithCwd : List WritableRoot :=
  getWritableRootsWithCwdImpl lib host policy cwd host.normalizeEffectiveAbsolutePath

/-! ## What a root reports -/

variable {lib host policy cwd} in
theorem mem_effectiveEntries {entry : ResolvedFileSystemEntry} :
    entry ∈ effectiveEntries lib host policy cwd ↔
    entry ∈ resolvedEntriesWithCwd lib host policy cwd ∧ entry.access.canWrite =
    canWriteLocalPathWithCwd lib host policy entry.path.toText cwd := by
  simp [effectiveEntries]

variable {lib host policy cwd} in
theorem mem_preparedEntries (noSymlinks : host.HasNoSymlinks) {ready : PreparedFileSystemEntry} :
    ready ∈ preparedEntries lib host policy cwd host.normalizeEffectiveAbsolutePath ↔
    ready.entry ∈ effectiveEntries lib host policy cwd ∧
    ready.effectivePath = ready.entry.path := by
  rw [preparedEntries, mem_map]
  constructor
  · rintro ⟨entry, mem, rfl⟩
    exact ⟨mem, noSymlinks entry.path⟩
  · rintro ⟨mem, effective⟩
    exact ⟨ready.entry, mem, by rw [noSymlinks, ← effective]⟩

variable {lib host policy cwd} in
/-- A writable root comes from an entry that grants writing and whose path can be written. -/
theorem of_mem_getWritableRootsWithCwd (noSymlinks : host.HasNoSymlinks) {root : WritableRoot}
    (mem : root ∈ getWritableRootsWithCwd lib host policy cwd) :
    hasFullDiskWriteAccess lib policy = false ∧ (⟨root.root, .write⟩ : ResolvedFileSystemEntry) ∈
    resolvedEntriesWithCwd lib host policy cwd ∧
    canWriteLocalPathWithCwd lib host policy root.root.toText cwd = true ∧
    root = writableRootAt lib host policy cwd host.normalizeEffectiveAbsolutePath
    (preparedEntries lib host policy cwd host.normalizeEffectiveAbsolutePath) root.root := by
  unfold getWritableRootsWithCwd getWritableRootsWithCwdImpl at mem
  split at mem
  · cases mem
  next notFull =>
    split at mem
    · cases mem
    · split at mem
      · cases mem
      · obtain ⟨path, found, rfl⟩ := mem_map.mp mem
        rw [mem_eraseDups, mem_map] at found
        obtain ⟨ready, kept, rfl⟩ := found
        obtain ⟨isPrepared, writes⟩ := mem_filter.mp kept
        obtain ⟨isEffective, effective⟩ :=
          (mem_preparedEntries noSymlinks).mp isPrepared
        obtain ⟨resolved, given⟩ :=
          mem_effectiveEntries.mp isEffective
        refine ⟨by simpa using notFull, ?_, ?_, rfl⟩
        · have isWrite : ready.entry.access = .write := beq_iff_eq.mp writes
          change (⟨ready.effectivePath, .write⟩ : ResolvedFileSystemEntry) ∈ _
          rw [effective, ← isWrite]
          exact resolved
        · change canWriteLocalPathWithCwd lib host policy ready.effectivePath.toText cwd = true
          rw [effective, ← given]
          exact writes

theorem rawWritableRoots_eq (noSymlinks : host.HasNoSymlinks) (root : AbsolutePathBuf) :
    ∀ rawRoot ∈ ((preparedEntries lib host policy cwd host.normalizeEffectiveAbsolutePath).filter
    fun other => other.entry.access.canWrite && other.effectivePath == root).map
    fun other => other.entry.path, rawRoot = root := by
  intro rawRoot isRaw
  obtain ⟨ready, kept, rfl⟩ := mem_map.mp isRaw
  obtain ⟨isPrepared, atRoot⟩ := mem_filter.mp kept
  rw [Bool.and_eq_true, beq_iff_eq] at atRoot
  rw [← ((mem_preparedEntries noSymlinks).mp isPrepared).2, atRoot.2]

variable (root : AbsolutePathBuf)

theorem carveoutPath_of_below (rawRoots : List AbsolutePathBuf)
    (ready : PreparedFileSystemEntry) (effective : ready.effectivePath = ready.entry.path)
    (below : ready.entry.path.startsWith root = true) (notRoot : ready.entry.path ≠ root) :
    carveoutPath host root rawRoots ready = some ready.entry.path := by
  unfold carveoutPath rawCarveoutPath
  rw [effective, if_neg notRoot, if_pos below]
  by_cases hasParent : root.parent.isSome = true
  · rw [if_pos hasParent]
  · rw [if_neg hasParent]
    exact if_neg (by simp [notRoot, below])

/-- Every effective entry strictly below a root that is no grant is one of its read-only paths. -/
theorem mem_readOnlySubpaths (noSymlinks : host.HasNoSymlinks) (root : WritableRoot)
    (mem : root ∈ getWritableRootsWithCwd lib host policy cwd)
    (entry : ResolvedFileSystemEntry) (isEffective : entry ∈ effectiveEntries lib host policy cwd)
    (narrows : entry.access ≠ .write) (below : entry.path.startsWith root.root = true)
    (notRoot : entry.path ≠ root.root) : entry.path ∈ root.readOnlySubpaths := by
  obtain ⟨_, _, _, made⟩ := of_mem_getWritableRootsWithCwd noSymlinks mem
  rw [made]
  simp only [writableRootAt, mem_eraseDups]
  refine mem_append_right _ (mem_filterMap.mpr ⟨⟨entry, entry.path⟩, ?_, ?_⟩)
  · refine mem_filter.mpr ⟨(mem_preparedEntries noSymlinks).mpr ⟨isEffective, rfl⟩, ?_⟩
    simpa [canWrite] using narrows
  · exact carveoutPath_of_below host root.root _ ⟨entry, entry.path⟩ rfl below notRoot

theorem exists_writableRoot_of_entry (noSymlinks : host.HasNoSymlinks) (path : AbsolutePathBuf)
    (notFull : hasFullDiskWriteAccess lib policy = false)
    (entry : (⟨path, .write⟩ : ResolvedFileSystemEntry) ∈
    resolvedEntriesWithCwd lib host policy cwd)
    (canWrite : canWriteLocalPathWithCwd lib host policy path.toText cwd = true) :
    ∃ root ∈ getWritableRootsWithCwd lib host policy cwd, root.root = path := by
  have isEffective : (⟨path, .write⟩ : ResolvedFileSystemEntry) ∈
      effectiveEntries lib host policy cwd :=
    mem_effectiveEntries.mpr ⟨entry, canWrite.symm⟩
  have given : ((resolvedEntriesWithCwd lib host policy cwd).any fun entry =>
    entry.access.canWrite) = true := any_eq_true.mpr ⟨_, entry, rfl⟩
  have effective : ((effectiveEntries lib host policy cwd).any fun entry =>
    entry.access.canWrite) = true := any_eq_true.mpr ⟨_, isEffective, rfl⟩
  refine ⟨writableRootAt lib host policy cwd host.normalizeEffectiveAbsolutePath
    (preparedEntries lib host policy cwd host.normalizeEffectiveAbsolutePath) path, ?_, rfl⟩
  simp only [getWritableRootsWithCwd, getWritableRootsWithCwdImpl, notFull, given, effective,
    Bool.not_true, Bool.false_eq_true, if_false]
  refine mem_map.mpr ⟨path, ?_, rfl⟩
  rw [mem_eraseDups, mem_map]
  exact ⟨⟨⟨path, .write⟩, path⟩, mem_filter.mpr
    ⟨(mem_preparedEntries noSymlinks).mpr ⟨isEffective, rfl⟩, rfl⟩, rfl⟩

variable (name : Text)

theorem names_join_protected (safe : name ∈ protectedMetadataPathNames) :
    (host.join root name).names = root.names ++ [name] := by
  have notHome : PathConvention.posix.homeRelativeSuffix name = none := by
    have all : (protectedMetadataPathNames.all fun name =>
      PathConvention.posix.homeRelativeSuffix name == none) = true := by decide
    exact beq_iff_eq.mp (all_eq_true.mp all name safe)
  have isPlain := isPlainName_of_protected safe
  have noSlash : '/' ∉ name := fun slash => (isPlain.plain '/' slash).1 rfl
  have relative : ¬ name.head? = some '/' := fun slash => noSlash (mem_of_mem_head? slash)
  rw [LocalHost.join, host.resolvePathAgainstBase_of_not_home name root (.inr notHome),
    AbsolutePathBuf.absolutizeFrom, if_neg relative, isPlain.pathSegments .posix]
  exact names_push_of_component root name
    ((isComponent_iff name).mpr ⟨isPlain.notDots.1, isPlain.notDots.2.1,
    isPlain.notDots.2.2, noSlash⟩)

/-- The `.git` file of the root points to a directory that is not below the root. -/
def IsOuterGitdir (root gitdir : AbsolutePathBuf) : Prop :=
  host.resolveGitdirFromFile (host.join root LocalHost.dotGit) = some gitdir ∧
    gitdir.startsWith root = false

instance (root gitdir : AbsolutePathBuf) : Decidable (IsOuterGitdir host root gitdir) :=
  inferInstanceAs (Decidable (_ ∧ _))

/-- No `.git` file of a writable root points out of the root to a directory around the path. -/
def OutsideGitdirs (path : AbsolutePathBuf) : Prop :=
  ∀ root ∈ getWritableRootsWithCwd lib host policy cwd, ∀ gitdir,
    IsOuterGitdir host root.root gitdir → path.startsWith gitdir = false

variable {lib host policy cwd}

theorem startsWith_join_protected (safe : name ∈ protectedMetadataPathNames) :
    (host.join root name).startsWith root = true := by
  rw [AbsolutePathBuf.startsWith_iff, names_join_protected host root name safe]
  exact prefix_append ..

theorem of_mem_defaultReadOnlySubpaths (protectsCodex : Bool) (subpath : AbsolutePathBuf)
    (mem : subpath ∈ host.defaultReadOnlySubpathsForWritableRoot root protectsCodex) :
    subpath.startsWith root = true ∨ IsOuterGitdir host root subpath := by
  simp only [LocalHost.defaultReadOnlySubpathsForWritableRoot, mem_eraseDups, mem_append] at mem
  rcases mem with (isGit | isAgents) | isCodex
  · unfold LocalHost.gitSubpaths at isGit
    dsimp only at isGit
    split at isGit
    · rcases mem_append.mp isGit with isGitdir | isDotGit
      · split at isGitdir
        · cases below : subpath.startsWith root with
          | true => exact .inl rfl
          | false => exact .inr ⟨Option.mem_toList.mp isGitdir, below⟩
        · cases isGitdir
      · rw [mem_singleton.mp isDotGit]
        exact .inl (startsWith_join_protected root _ (by decide))
    · cases isGit
  · split at isAgents
    · rw [mem_singleton.mp isAgents]
      exact .inl (startsWith_join_protected root _ (by decide))
    · cases isAgents
  · split at isCodex
    · rw [mem_singleton.mp isCodex]
      exact .inl (startsWith_join_protected root _ (by decide))
    · cases isCodex

theorem of_carveoutPath_eq_some (rawRoots : List AbsolutePathBuf)
    (ready : PreparedFileSystemEntry) (path : AbsolutePathBuf)
    (effective : ready.effectivePath = ready.entry.path)
    (onlyRoot : ∀ rawRoot ∈ rawRoots, rawRoot = root)
    (carved : carveoutPath host root rawRoots ready = some path) :
    path = ready.entry.path ∧ path.startsWith root = true ∧ path ≠ root := by
  unfold carveoutPath at carved
  split at carved
  next other raw =>
    cases carved
    unfold rawCarveoutPath at raw
    split at raw
    · split at raw
      · cases raw
      next notRoot =>
        split at raw
        next below =>
          cases raw
          exact ⟨rfl, below, notRoot⟩
        next out =>
          -- without links the entry would have to be below the root itself
          obtain ⟨rawRoot, mem, bare⟩ := exists_of_findSome?_eq_some raw
          rw [onlyRoot rawRoot mem] at bare
          split at bare
          next first rest split =>
            obtain ⟨pre, same, isRoot⟩ := dropPrefix?_eq_some_iff.mp split
            refine absurd ((AbsolutePathBuf.startsWith_iff _ _).mpr ?_) out
            rw [same, eq_of_beq isRoot]
            exact prefix_append ..
          · cases bare
    · cases raw
  · split at carved
    · cases carved
    next isIn =>
      cases carved
      rw [not_or, not_not] at isIn
      exact ⟨effective, isIn.2, isIn.1⟩

section

variable (noSymlinks : host.HasNoSymlinks) {root : WritableRoot}
  (mem : root ∈ getWritableRootsWithCwd lib host policy cwd)

include noSymlinks mem

/-- A read-only path of a root is one of its metadata paths, not named by an entry, or the path of
an entry below it that cannot be written. -/
theorem mem_readOnlySubpaths_cases {sub : AbsolutePathBuf}
    (readOnly : sub ∈ root.readOnlySubpaths) :
    (hasExplicitResolvedPathEntry (resolvedEntriesWithCwd lib host policy cwd) sub = false ∧
    (sub.startsWith root.root = true ∨ IsOuterGitdir host root.root sub)) ∨
    (canWriteLocalPathWithCwd lib host policy sub.toText cwd = false ∧
    sub.startsWith root.root = true ∧ sub ≠ root.root) := by
  obtain ⟨_, _, _, made⟩ :=
    of_mem_getWritableRootsWithCwd noSymlinks mem
  rw [made] at readOnly
  simp only [writableRootAt, mem_eraseDups, mem_append] at readOnly
  rcases readOnly with isDefault | isCarved
  · obtain ⟨isDefault, notExplicit⟩ := mem_filter.mp isDefault
    exact .inl ⟨by simpa using notExplicit,
      of_mem_defaultReadOnlySubpaths root.root _ sub isDefault⟩
  · obtain ⟨ready, kept, carved⟩ := mem_filterMap.mp isCarved
    obtain ⟨isPrepared, narrows⟩ := mem_filter.mp kept
    obtain ⟨isEffective, effective⟩ :=
      (mem_preparedEntries noSymlinks).mp isPrepared
    obtain ⟨rfl, below, notRoot⟩ := of_carveoutPath_eq_some root.root _ ready sub
      effective (rawWritableRoots_eq lib host policy cwd noSymlinks root.root) carved
    have mode := (mem_effectiveEntries.mp isEffective).2
    exact .inr ⟨mode.symm.trans (by simpa using narrows), below, notRoot⟩

omit noSymlinks mem in
/-- The read-only paths of a root are strictly below it, but for the directory of its `.git`
file. -/
theorem of_mem_readOnlySubpaths (noSymlinks : host.HasNoSymlinks) (root : WritableRoot)
    (mem : root ∈ getWritableRootsWithCwd lib host policy cwd) (subpath : AbsolutePathBuf)
    (readOnly : subpath ∈ root.readOnlySubpaths) :
    (subpath.startsWith root.root = true ∧ subpath ≠ root.root) ∨
    IsOuterGitdir host root.root subpath := by
  obtain ⟨_, entry, _, _⟩ :=
    of_mem_getWritableRootsWithCwd noSymlinks mem
  rcases mem_readOnlySubpaths_cases noSymlinks mem readOnly with
    ⟨notExplicit, below | isOuter⟩ | ⟨_, below, notRoot⟩
  · refine .inl ⟨below, ?_⟩
    rintro rfl
    have explicit : hasExplicitResolvedPathEntry (resolvedEntriesWithCwd lib host policy cwd)
      root.root = true := any_eq_true.mpr ⟨_, entry, beq_self_eq_true _⟩
    rw [explicit] at notExplicit
    cases notExplicit
  · exact .inr isOuter
  · exact .inl ⟨below, notRoot⟩

theorem isProtected_of_reported {name : Text}
    (reported : name ∈ root.protectedMetadataNames) : name ∈ protectedMetadataPathNames := by
  obtain ⟨_, _, _, made⟩ := of_mem_getWritableRootsWithCwd noSymlinks mem
  rw [made] at reported
  exact (mem_filter.mp reported).1

theorem canWrite_of_not_protected {name : Text} (safe : name ∈ protectedMetadataPathNames)
    (notReported : name ∉ root.protectedMetadataNames) :
    canWriteLocalPathWithCwd lib host policy (host.join root.root name).toText cwd = true := by
  obtain ⟨_, _, _, made⟩ := of_mem_getWritableRootsWithCwd noSymlinks mem
  rw [made] at notReported
  simp only [writableRootAt, protectedMetadataNamesForWritableRoot] at notReported
  by_contra cannot
  refine notReported (mem_filter.mpr ⟨safe, all_eq_true.mpr ?_⟩)
  intro metadataPath isIn
  obtain ⟨above, aboveMem, rfl⟩ := mem_map.mp isIn
  have isRoot : above = root.root := by
    rcases mem_cons.mp aboveMem with same | isRaw
    · exact same
    · exact rawWritableRoots_eq lib host policy cwd noSymlinks root.root above isRaw
  rw [isRoot]
  simpa using cannot

end

/-! ## Paths that a root reports as writable -/

theorem canWritePath_iff (path : PathUri) (ctx : FileSystemSandboxPolicyContext)
    (notFull : hasFullDiskWriteAccessWithContext lib policy ctx = false) :
    canWritePath lib policy path ctx = true ↔ resolveAccess lib policy path ctx = .write ∧
    metadataWriteDenial lib policy path ctx = none := by
  rw [canWritePath, notFull, Bool.false_or, Bool.and_eq_true, Option.isNone_iff_eq_none,
    canWrite, beq_iff_eq]

theorem restricted_of_not_fullDisk (notFull : hasFullDiskWriteAccess lib policy = false) :
    policy.kind = .restricted := by
  cases kind : policy.kind with
  | restricted => rfl
  | unrestricted =>
    simp [hasFullDiskWriteAccess, hasFullDiskWriteAccessForConvention, kind] at notFull
  | externalSandbox =>
    simp [hasFullDiskWriteAccess, hasFullDiskWriteAccessForConvention, kind] at notFull

theorem find?_eq_some_of_imp {α : Type} (weaker stronger : α → Bool) (elems : List α)
    (found : α) (implies : ∀ elem ∈ elems, stronger elem = true → weaker elem = true)
    (scan : elems.find? weaker = some found) (holds : stronger found = true) :
    elems.find? stronger = some found := by
  obtain ⟨_, pre, after, rfl, earlier⟩ := find?_eq_some_iff_append.mp scan
  refine find?_eq_some_iff_append.mpr ⟨holds, pre, after, rfl, fun elem mem => ?_⟩
  have failed := earlier elem mem
  rw [Bool.not_eq_true'] at failed ⊢
  by_contra succeeds
  rw [implies elem (mem_append_left _ mem) (by simpa using succeeds)] at failed
  cases failed

/-- What the metadata rules let be written above a path reopens the directory around the path. -/
theorem hasDeeperWriteRoot_of_canWrite {path above : AbsolutePathBuf}
    {first : PathUri × FileSystemAccessMode} {place : Location} {name : Text}
    (notFull : hasFullDiskWriteAccessWithContext lib policy (localPolicyContext lib host cwd) =
    false) (restricted : policy.kind = .restricted)
    (valid : HasValidRoots lib (localEntries lib host policy cwd))
    (ordinary : isFallback (fromAbsPath lib path) = false) (below : path.startsWith above = true)
    (canWrite : canWriteLocalPathWithCwd lib host policy above.toText cwd = true)
    (scan : (localEntries lib host policy cwd).find?
    (protects lib (fromAbsPath lib path)) = some first)
    (loc : location lib first.1 = some place) (safe : name ∈ protectedMetadataPathNames)
    (isIn : (placeOf above).Within (place.child name)) :
    HasDeeperWriteRoot lib (localEntries lib host policy cwd) (placeOf path) place := by
  rw [canWriteLocalPathWithCwd, host.resolveCandidatePath_toText,
    canWritePath_iff _ _ notFull] at canWrite
  obtain ⟨writes, noDenial⟩ := canWrite
  obtain ⟨_, aboveOrdinary, _⟩ := governs_of_resolveAccess restricted
    (by rw [writes]; exact fun denied => by cases denied)
  have aboveLoc := (fromAbsPath_denotes aboveOrdinary).2
  have pathLoc := (fromAbsPath_denotes ordinary).2
  have within := placeOf_within.mpr below
  have mem := mem_of_find?_eq_some scan
  have firstWrites : first.2 = .write :=
    ((protects_iff valid pathLoc mem).mp (find?_some scan)).1
  have searchAbove : (localEntries lib host policy cwd).find?
      (protects lib (fromAbsPath lib above)) = some first := by
    refine find?_eq_some_of_imp _ _ _ first (fun entry entryMem guards => ?_) scan
      ((protects_iff valid aboveLoc mem).mpr ⟨firstWrites, place, loc, name, safe, isIn⟩)
    obtain ⟨entryWrites, root, rootLoc, other, otherProtected, otherInside⟩ :=
      (protects_iff valid aboveLoc entryMem).mp guards
    exact (protects_iff valid pathLoc entryMem).mpr
      ⟨entryWrites, root, rootLoc, other, otherProtected, within.trans otherInside⟩
  obtain ⟨rule, ruleMem, ruleWrites, covers, deeper⟩ :=
    (metadataWriteDenial_eq_none_iff restricted valid aboveLoc).mp noDenial
      first place searchAbove loc
  exact ⟨rule, ruleMem, ruleWrites, within.trans covers, deeper⟩

variable (lib host policy cwd) in
/-- Protected directories of the writable roots strictly below the root are reopened where they
contain the path. -/
def InnerMetadataReopened (root path : AbsolutePathBuf) : Prop :=
  ∀ entry ∈ localEntries lib host policy cwd, entry.2.canWrite = true →
    PathUri.startsWith lib entry.1 (PathUri.fromAbsPath lib root) = true →
    PathUri.startsWith lib (PathUri.fromAbsPath lib root) entry.1 = false →
    ∀ name ∈ protectedMetadataPathNames, ∀ protectedPath,
      PathUri.joinDescendant lib entry.1 name = .ok protectedPath →
      PathUri.startsWith lib (PathUri.fromAbsPath lib path) protectedPath = true →
      Reopened lib (localEntries lib host policy cwd) (PathUri.fromAbsPath lib path) protectedPath

/-- Neither a read-only path below the root nor a protected name of the root covers the path. -/
structure ReportsWritable (root : WritableRoot) (path : AbsolutePathBuf) : Prop where
  below : path.startsWith root.root = true
  notReadOnly : ∀ subpath ∈ root.readOnlySubpaths, subpath.startsWith root.root = true →
    path.startsWith subpath = false
  notProtected : ∀ name ∈ root.protectedMetadataNames, ¬ root.root.names ++ [name] <+: path.names

theorem hasFullDiskWriteAccessWithContext_local
    (ordinary : isFallback (fromAbsPath lib cwd) = false) :
    hasFullDiskWriteAccessWithContext lib policy (localPolicyContext lib host cwd) =
    hasFullDiskWriteAccess lib policy := by
  have posix := convention_of_location (fromAbsPath_denotes ordinary).2
  rw [hasFullDiskWriteAccessWithContext, hasFullDiskWriteAccess]
  exact congrArg _ posix

theorem resolveAccess_of_canWriteLocal {path : AbsolutePathBuf}
    (canWrite : canWriteLocalPathWithCwd lib host policy path.toText cwd = true) :
    resolveAccess lib policy (fromAbsPath lib path) (localPolicyContext lib host cwd) = .write := by
  rw [canWriteLocalPathWithCwd, host.resolveCandidatePath_toText, canWritePath,
    Bool.and_eq_true] at canWrite
  exact beq_iff_eq.mp canWrite.1

section

variable (noSymlinks : host.HasNoSymlinks) (wellFormed : HasWellFormedPaths lib policy)

include noSymlinks wellFormed

section

variable {path : AbsolutePathBuf} (ordinary : isFallback (fromAbsPath lib path) = false)
  (alike : NarrowsAlike lib host policy cwd path) {root : WritableRoot}
  (mem : root ∈ getWritableRootsWithCwd lib host policy cwd)

include ordinary alike mem

theorem resolveAccess_of_reportsWritable (reports : ReportsWritable root path) :
    resolveAccess lib policy (fromAbsPath lib path) (localPolicyContext lib host cwd) = .write := by
  obtain ⟨notFull, _, canWrite, _⟩ :=
    of_mem_getWritableRootsWithCwd noSymlinks mem
  have narrow := restricted_of_not_fullDisk notFull
  have rootWrites := resolveAccess_of_canWriteLocal canWrite
  by_contra narrowed
  obtain ⟨means, rule, mode, gov, entry, covers, belowRoot, notRoot⟩ :=
    exists_narrowing_entry narrow wellFormed ordinary alike
      reports.below (by rw [rootWrites]; exact fun denied => by cases denied)
      (by rw [rootWrites]; exact narrowed) narrowed
  have narrows : rule.2 ≠ .write := mode ▸ narrowed
  have cannot : canWriteLocalPathWithCwd lib host policy means.toText cwd = false := by
    by_contra can
    have writes := resolveAccess_of_canWriteLocal (by simpa using can)
    refine narrows ?_
    rw [← resolveAccess_of_governs narrow gov
      (by rw [writes]; exact fun denied => by cases denied), writes]
  have isEffective : (⟨means, rule.2⟩ : ResolvedFileSystemEntry) ∈
      effectiveEntries lib host policy cwd := by
    refine mem_effectiveEntries.mpr ⟨entry, ?_⟩
    rw [cannot]
    simpa [FileSystemAccessMode.canWrite] using narrows
  have readOnly := mem_readOnlySubpaths lib host policy cwd noSymlinks root mem
    ⟨means, rule.2⟩ isEffective narrows belowRoot notRoot
  rw [reports.notReadOnly means readOnly belowRoot] at covers
  cases covers

omit ordinary alike mem in
theorem metadataWriteDenial_of_reportsWritable (path : AbsolutePathBuf)
    (ordinary : isFallback (fromAbsPath lib path) = false) (root : WritableRoot)
    (mem : root ∈ getWritableRootsWithCwd lib host policy cwd)
    (inner : InnerMetadataReopened lib host policy cwd root.root path)
    (reports : ReportsWritable root path) : metadataWriteDenial lib policy (fromAbsPath lib path)
    (localPolicyContext lib host cwd) = none := by
  obtain ⟨notFull, _, canWrite, _⟩ :=
    of_mem_getWritableRootsWithCwd noSymlinks mem
  have narrow := restricted_of_not_fullDisk notFull
  have rootWrites := resolveAccess_of_canWriteLocal canWrite
  obtain ⟨cwdPlain, rootOrdinary, lex, _⟩ :=
    governs_of_resolveAccess narrow (by rw [rootWrites]; exact fun denied => by cases denied)
  have valid := hasValidRoots_localEntries lib host policy cwd cwdPlain wellFormed lex
  rw [← hasFullDiskWriteAccessWithContext_local cwdPlain] at notFull
  have loc := (fromAbsPath_denotes ordinary).2
  have rootLoc := (fromAbsPath_denotes rootOrdinary).2
  have within := placeOf_within.mpr reports.below
  refine (metadataWriteDenial_eq_none_iff narrow valid loc).mpr ?_
  intro first place scan firstLoc
  have firstMem := mem_of_find?_eq_some scan
  have guards := find?_some scan
  obtain ⟨firstWrites, other, otherLoc, name, safe, isIn⟩ :=
    (protects_iff valid loc firstMem).mp guards
  cases firstLoc.symm.trans otherLoc
  have firstCovers := isIn.trans (place.child_within name)
  rcases Nat.lt_trichotomy place.depth (placeOf root.root).depth with higher | same | lower
  · -- the directory contains the root, which can be written
    refine hasDeeperWriteRoot_of_canWrite
      notFull narrow valid ordinary reports.below canWrite scan firstLoc safe ?_
    refine of_depth_le isIn within ?_
    rw [place.depth_child name]
    exact higher
  · -- it is a directory of the root itself, and not one of its protected names
    have isRoot : place = placeOf root.root :=
      Hierarchy.eq_of_depth_eq firstCovers within same
    subst isRoot
    have names := names_join_protected host root.root name safe
    have child : placeOf (host.join root.root name) = (placeOf root.root).child name := by
      rw [placeOf, names]
      rfl
    have notReported : name ∉ root.protectedMetadataNames := fun reported =>
      reports.notProtected name reported isIn.2.2
    refine hasDeeperWriteRoot_of_canWrite notFull narrow valid ordinary ?_
      (canWrite_of_not_protected noSymlinks mem safe
      notReported) scan firstLoc safe (child ▸ refl _)
    exact placeOf_within.mp (child ▸ isIn)
  · -- it is a directory of a root further down
    have firstValid : IsValid lib first.1 := by
      rcases valid first firstMem with isFallback | ⟨firstValid, _⟩
      · rw [location_of_fallback lib isFallback] at firstLoc
        cases firstLoc
      · exact firstValid
    rw [protects, Bool.and_eq_true] at guards
    obtain ⟨⟨guarded, dir⟩, found⟩ := Option.isSome_iff_exists.mp guards.2
    obtain ⟨joined, isDirectory, dirLoc, insideDirectory⟩ :=
      protectedDirectory_eq_some loc firstValid firstLoc
      found
    refine (reopened_iff_of_protectedDirectory _ loc firstValid firstLoc found).mp (inner
      first firstMem guards.1 ?_ ?_ dir isDirectory guarded joined ?_)
    · exact (PathUri.startsWith_iff firstLoc).mpr
        ⟨_, rootLoc, of_depth_le within firstCovers (Nat.le_of_lt lower)⟩
    · by_contra starts
      obtain ⟨base, baseLoc, rootWithin⟩ :=
        (PathUri.startsWith_iff rootLoc).mp (by simpa using starts)
      cases firstLoc.symm.trans baseLoc
      exact Nat.not_lt.mpr rootWithin.depth_le lower
    · exact (PathUri.startsWith_iff loc).mpr ⟨_, dirLoc, insideDirectory⟩

omit ordinary alike mem in
omit noSymlinks wellFormed in
/-- The path of a grant above a writable path can be written, or a grant further down contains the
writable path. -/
theorem canWriteLocal_or_hasDeeperWriteRoot (path above : AbsolutePathBuf)
    (notFull : hasFullDiskWriteAccess lib policy = false)
    (wellFormed : HasWellFormedPaths lib policy)
    (writes : resolveAccess lib policy (fromAbsPath lib path)
    (localPolicyContext lib host cwd) = .write) (below : path.startsWith above = true)
    (given : (placeOf above, .write) ∈ localRules lib host policy cwd) :
    canWriteLocalPathWithCwd lib host policy above.toText cwd = true ∨
    HasDeeperWriteRoot lib (localEntries lib host policy cwd) (placeOf path) (placeOf above) := by
  have narrow := restricted_of_not_fullDisk notFull
  obtain ⟨cwdPlain, ordinary, lex, rule, gov, access⟩ :=
    governs_of_resolveAccess narrow (by rw [writes]; exact fun denied => by cases denied)
  have aboveOrdinary := fromAbsPath_ordinary_of_startsWith lib path above below ordinary
  have aboveLoc := (fromAbsPath_denotes aboveOrdinary).2
  have valid := hasValidRoots_localEntries lib host policy cwd cwdPlain wellFormed lex
  obtain ⟨upper, upperGov⟩ := exists_governs ⟨_, given, refl _⟩
  have atLeast := upperGov.greatest _ given (refl _)
  have own : placeOf above = upper.1 :=
    eq_of_depth_le upperGov.covers atLeast.depth_le
  have upperAccess : upper.2 = resolveAccess lib policy (fromAbsPath lib above)
      (localPolicyContext lib host cwd) :=
    GivesAccess.unique (.inl ⟨upper, upperGov, rfl⟩)
      (givesAccess_resolveAccess policy narrow
      (isResolvable_local.mpr ⟨cwdPlain, aboveOrdinary⟩) aboveLoc
      lex)
  rw [← hasFullDiskWriteAccessWithContext_local cwdPlain] at notFull
  cases mode : upper.2 with
  | write =>
    left
    rw [canWriteLocalPathWithCwd, host.resolveCandidatePath_toText,
      canWritePath_iff _ _ notFull, ← upperAccess]
    refine ⟨mode, (metadataWriteDenial_eq_none_iff narrow valid aboveLoc).mpr ?_⟩
    intro first place scan loc
    obtain ⟨_, other, otherLoc, name, _, isIn⟩ := (protects_iff valid
      aboveLoc (mem_of_find?_eq_some scan)).mp (find?_some scan)
    cases loc.symm.trans otherLoc
    have deeper := isIn.depth_le
    rw [place.depth_child name] at deeper
    exact ⟨_, given, rfl, refl _, deeper⟩
  | read =>
    rcases atLeast with lower | ⟨_, atMost⟩
    · rw [rank, rank, own] at lower
      exact absurd lower (Nat.lt_irrefl _)
    · have writeFirst : ¬ write ≤ read := by decide
      rw [rank, rank, mode] at atMost
      exact absurd atMost writeFirst
  | deny =>
    right
    refine ⟨rule, gov.mem, access.trans writes, gov.covers, ?_⟩
    by_contra shallow
    have same := upperGov.eq_of_depth_le gov (placeOf_within.mpr below)
      (Nat.not_lt.mp shallow)
    rw [← same, access, writes] at mode
    cases mode

theorem canWritePath_of_reportsWritable
    (inner : InnerMetadataReopened lib host policy cwd root.root path)
    (reports : ReportsWritable root path) :
    canWritePath lib policy (fromAbsPath lib path) (localPolicyContext lib host cwd) = true := by
  rw [canWritePath, resolveAccess_of_reportsWritable noSymlinks wellFormed
    ordinary alike mem reports, metadataWriteDenial_of_reportsWritable
    noSymlinks wellFormed path ordinary root mem inner reports]
  simp [canWrite]

end

end

/-- What `isPathWritable` checks for a path without steps to a parent. -/
theorem reportsWritable_of_isPathWritable {root : WritableRoot} {text : Text}
    (noParents : ['.', '.'] ∉ pathComponents text) (writable : root.isPathWritable text = true) :
    text.head? = some '/' ∧ ReportsWritable root (.absolutizeFrom text .root) := by
  unfold WritableRoot.isPathWritable at writable
  dsimp only at writable
  split at writable
  · cases writable
  next out =>
    rw [not_or, not_not, not_not] at out
    obtain ⟨abs, below⟩ := out
    have names := AbsolutePathBuf.names_absolutizeFrom text AbsolutePathBuf.root abs noParents
    split at writable
    · cases writable
    next notReadOnly =>
      refine ⟨abs, ?_, ?_, ?_⟩
      · rw [AbsolutePathBuf.startsWith, names]
        exact below
      · intro sub mem _
        rw [AbsolutePathBuf.startsWith, names]
        by_contra covered
        exact notReadOnly (any_eq_true.mpr ⟨sub, mem, by simpa using covered⟩)
      · rw [names]
        rintro name reported ⟨rest, split⟩
        have dropped : (pathComponents text).dropPrefix? root.root.names = some (name :: rest) := by
          rw [dropPrefix?_eq_some_iff]
          exact ⟨root.root.names, by rw [← split]; simp, beq_self_eq_true _⟩
        rw [WritableRoot.pathContainsProtectedMetadataName, dropped] at writable
        simp [reported] at writable

variable (lib host policy cwd) in
/-- A path that a writable root reports as writable can be written, if it has no steps to a parent
and an ordinary URI, every entry that narrows it is read alike, and the roots further down reopen
the protected directories it is in. -/
theorem canWriteLocalPath_of_isPathWritable (path : Text) (root : WritableRoot)
    (noSymlinks : host.HasNoSymlinks) (wellFormed : HasWellFormedPaths lib policy)
    (noParents : ['.', '.'] ∉ AbsolutePathBuf.pathComponents path)
    (ordinary : PathUri.isFallback (PathUri.fromAbsPath lib
      (AbsolutePathBuf.absolutizeFrom path AbsolutePathBuf.root)) = false)
    (alike : NarrowsAlike lib host policy cwd
      (AbsolutePathBuf.absolutizeFrom path AbsolutePathBuf.root))
    (inner : InnerMetadataReopened lib host policy cwd root.root
      (AbsolutePathBuf.absolutizeFrom path AbsolutePathBuf.root))
    (member : root ∈ getWritableRootsWithCwd lib host policy cwd)
    (writable : root.isPathWritable path = true) :
    canWriteLocalPathWithCwd lib host policy path cwd = true := by
  obtain ⟨absolute, reports⟩ := reportsWritable_of_isPathWritable noParents writable
  rw [canWriteLocalPathWithCwd, LocalHost.resolveCandidatePath, if_pos absolute]
  exact canWritePath_of_reportsWritable noSymlinks wellFormed ordinary alike member inner reports

end

/-! ## Instances -/

def emptyHost : LocalHost where
  home := some ⟨["h".toList], by decide⟩
  tmpdir := none
  node := fun _ => none
  normalizeEffectiveAbsolutePath := id

def workspaceDirectory : AbsolutePathBuf := ⟨["w".toList], by decide⟩

def entriesPolicy (entries : List (FileSystemPath × FileSystemAccessMode)) :
    FileSystemSandboxPolicy where
  kind := .restricted
  globScanMaxDepth := none
  entries := entries.map fun entry => ⟨entry.1, entry.2, none⟩

def filePath (names : List Text) : FileSystemPath := .path (.file ⟨none, names⟩)

/-- The file system can be written, but for one entry. -/
def narrowedRootPolicy (path : FileSystemPath) : FileSystemSandboxPolicy :=
  entriesPolicy [(.special .root, .write), (path, .read)]

/-- A writable directory in a read-only part of the workspace. -/
def generatedSourcesPolicy : FileSystemSandboxPolicy :=
  entriesPolicy [(filePath ["w".toList], .write), (filePath ["w".toList, "src".toList], .read),
    (filePath ["w".toList, "src".toList, "gen".toList], .write)]

def generatedSourcesRoot : WritableRoot where
  root := ⟨["w".toList, "src".toList, "gen".toList], by decide⟩
  readOnlySubpaths := []
  protectedMetadataNames := protectedMetadataPathNames

theorem generated_source_can_be_written :
    generatedSourcesRoot ∈ getWritableRootsWithCwd PercentEncoding.urlLibrary emptyHost
        generatedSourcesPolicy workspaceDirectory ∧
      generatedSourcesRoot.isPathWritable "/w/src/gen/./x".toList = true ∧
      canWriteLocalPathWithCwd PercentEncoding.urlLibrary emptyHost generatedSourcesPolicy
        "/w/src/gen/./x".toList workspaceDirectory = true := by
  have mem : generatedSourcesRoot ∈ getWritableRootsWithCwd urlLibrary emptyHost
    generatedSourcesPolicy workspaceDirectory := by decide
  refine ⟨mem, by decide, canWriteLocalPath_of_isPathWritable urlLibrary
    emptyHost generatedSourcesPolicy workspaceDirectory "/w/src/gen/./x".toList
    generatedSourcesRoot (fun _ => rfl) (by decide) (by decide) (by decide) ?_ ?_ mem
    (by decide)⟩
  · intro entry entryMem narrows elsewhere
    have isFile : ∀ entry ∈ generatedSourcesPolicy.entries,
        ∃ names ∈ [["w".toList], ["w".toList, "src".toList],
          ["w".toList, "src".toList, "gen".toList]], entry.path = filePath names := by decide
    obtain ⟨names, _, isPath⟩ := isFile entry entryMem
    rw [isPath] at elsewhere
    cases elsewhere
  · intro entry entryMem writes below notAbove
    have innermost : ∀ entry ∈ localEntries urlLibrary emptyHost
      generatedSourcesPolicy workspaceDirectory,
      PathUri.startsWith urlLibrary entry.1 (fromAbsPath
      urlLibrary generatedSourcesRoot.root) = true →
      PathUri.startsWith urlLibrary (fromAbsPath
      urlLibrary generatedSourcesRoot.root) entry.1 = true := by decide
    rw [innermost entry entryMem below] at notAbove
    cases notAbove

def ReportsBeyondPolicy (lib : UrlLibrary) (host : LocalHost) (policy : FileSystemSandboxPolicy)
    (cwd : AbsolutePathBuf) (path : Text) : Prop :=
  HasWellFormedPaths lib policy ∧ policy.kind = .restricted ∧
    hasFullDiskWriteAccess lib policy = false ∧
    (∃ root ∈ getWritableRootsWithCwd lib host policy cwd, root.isPathWritable path = true) ∧
    canWriteLocalPathWithCwd lib host policy path cwd = false

instance (lib : UrlLibrary) (host : LocalHost) (policy : FileSystemSandboxPolicy)
    (cwd : AbsolutePathBuf) (path : Text) :
    Decidable (ReportsBeyondPolicy lib host policy cwd path) :=
  inferInstanceAs (Decidable (_ ∧ _ ∧ _ ∧ _ ∧ _))

/-- A root reports the metadata of a root below it, a path without an ordinary URI, a path below a
missing `/tmp`, a path below an entry that is expanded to the home directory, and a path that
leaves the root by a step to the parent. -/
theorem roots_report_beyond_policy :
    emptyHost.HasNoSymlinks ∧
      ReportsBeyondPolicy PercentEncoding.urlLibrary emptyHost
        (entriesPolicy [(filePath ["w".toList], .write),
          (filePath ["w".toList, "b".toList], .write)])
        workspaceDirectory "/w/b/.git/x".toList ∧
      ReportsBeyondPolicy PercentEncoding.urlLibrary emptyHost
        (narrowedRootPolicy (filePath ["s".toList])) workspaceDirectory "/C:/x".toList ∧
      ReportsBeyondPolicy PercentEncoding.urlLibrary emptyHost
        (narrowedRootPolicy (.special .slashTmp)) workspaceDirectory "/tmp/x".toList ∧
      ReportsBeyondPolicy PercentEncoding.urlLibrary emptyHost
        (entriesPolicy [(filePath ["w".toList], .write),
          (.special (.projectRoots (some "~/x".toList)), .read)])
        workspaceDirectory "/w/~/x/f".toList ∧
      ReportsBeyondPolicy PercentEncoding.urlLibrary emptyHost
        (entriesPolicy [(filePath ["w".toList], .write)]) workspaceDirectory
        "/w/../etc".toList :=
  ⟨fun _ => rfl, by decide, by decide, by decide, by decide, by decide⟩

end FileSystemSandboxPolicy

end CodexFormal.Permissions
