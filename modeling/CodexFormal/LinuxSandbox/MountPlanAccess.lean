import CodexFormal.LinuxSandbox.MountOperations

/-!
# Access under a mount plan

The mount that governs a path is in the base view or belongs to one writable
root.  A root that governs a path for writing is the deepest one that contains
it, and neither its read-only paths nor the denied paths below it do.
-/

set_option autoImplicit false

namespace CodexFormal.LinuxSandbox

open Foundation Uri Permissions List
open Patch (Text)

theorem exists_of_mapM_eq_ok {ε α β : Type} (op : α → Except ε (List β)) (elems : List α)
    (results : List (List β)) (runs : elems.mapM op = .ok results) :
    ∃ resultOf : α → List β, results.flatten = elems.flatMap resultOf ∧
    ∀ elem ∈ elems, op elem = .ok (resultOf elem) := by
  refine ⟨fun elem => ((op elem).toOption).getD [], ?_⟩
  induction elems generalizing results with
  | nil =>
    cases runs
    exact ⟨rfl, fun elem mem => by cases mem⟩
  | cons elem rest ih =>
    rw [mapM_cons] at runs
    obtain ⟨res, first, runs⟩ := bind_eq_ok runs
    obtain ⟨restResults, more, runs⟩ := bind_eq_ok runs
    cases runs
    obtain ⟨flattened, succeeded⟩ := ih restResults more
    refine ⟨?_, ?_⟩
    · rw [flatten_cons, flatMap_cons, flattened, first]
      rfl
    · intro other mem
      rcases mem_cons.mp mem with rfl | mem
      · dsimp only
        rw [first]
        rfl
      · exact succeeded other mem

def isGlobPattern : FileSystemPath → Bool
  | .globPattern _ => true
  | _ => false

section

variable (lib : UrlLibrary) (host : SandboxHost) (policy : FileSystemSandboxPolicy)
  (cwd : AbsolutePathBuf) (options : BwrapOptions) (ops : List BwrapOperation)

variable {lib host policy cwd options ops} in
theorem of_createFilesystemArgs_eq_ok
    (built : createFilesystemArgs lib host policy cwd options = .ok ops) :
    ∃ base blockOf, baseArgs lib host policy cwd = .ok base ∧
    (∀ root ∈ sortedWritableRoots lib host policy cwd,
    writableRootArgs lib host policy cwd options (allowedWritePaths lib host policy cwd) root =
    .ok (blockOf root)) ∧ ops = base ++ unreadableAncestorArgs lib host policy cwd options
    (allowedWritePaths lib host policy cwd) ++
    (sortedWritableRoots lib host policy cwd).flatMap blockOf ++
    rootlessUnreadableArgs lib host policy cwd options (allowedWritePaths lib host policy cwd) ++
    wslgDistroArgs lib host policy cwd options (allowedWritePaths lib host policy cwd) := by
  obtain ⟨base, baseBuilt, rest⟩ := bind_eq_ok built
  obtain ⟨blocks, blocksBuilt, rest⟩ := bind_eq_ok rest
  cases rest
  obtain ⟨blockOf, flattened, succeeded⟩ := exists_of_mapM_eq_ok _ _ blocks blocksBuilt
  exact ⟨base, blockOf, baseBuilt, succeeded, by rw [flattened]⟩

variable {lib host policy cwd options} in
theorem of_writableRootArgs_eq_ok {may : List AbsolutePathBuf} {root : WritableRoot}
    {block : List BwrapOperation}
    (built : writableRootArgs lib host policy cwd options may root = .ok block) :
    ∃ mask readOnlyOf, daemonSocketMask host root.root = .ok mask ∧
    (∀ sub ∈ subpathsToMount lib host policy cwd options root,
    readOnlySubpathArgs host may sub = .ok (readOnlyOf sub)) ∧
    block = maskedParentArgs lib host policy cwd options root.root ++ [.bind root.root] ++ mask ++
    (subpathsToMount lib host policy cwd options root).flatMap readOnlyOf ++
    registryArgs host root.root ++
    nestedUnreadableArgs lib host policy cwd options may root.root := by
  obtain ⟨mask, masked, rest⟩ := bind_eq_ok built
  obtain ⟨readOnly, subpathsBuilt, rest⟩ := bind_eq_ok rest
  cases rest
  obtain ⟨readOnlyOf, flattened, succeeded⟩ := exists_of_mapM_eq_ok _ _ readOnly subpathsBuilt
  exact ⟨mask, readOnlyOf, masked, succeeded, by rw [flattened]⟩

theorem mem_sortedByDepth (paths : List AbsolutePathBuf) (path : AbsolutePathBuf) :
    path ∈ sortedByDepth paths ↔ path ∈ paths :=
  mem_insertionSort _

theorem mem_sortedPaths (paths : List AbsolutePathBuf) (path : AbsolutePathBuf) :
    path ∈ sortedPaths paths ↔ path ∈ paths := by
  rw [sortedPaths, mem_eraseDups, mem_insertionSort]

def HasNoGlobs : Prop := ∀ entry ∈ policy.entries, isGlobPattern entry.path = false

instance : Decidable (HasNoGlobs policy) :=
  inferInstanceAs (Decidable (∀ entry ∈ policy.entries, isGlobPattern entry.path = false))

variable {policy} in
theorem getUnreadableGlobsWithCwd_of_noGlobs (noGlobs : HasNoGlobs policy) :
    policy.getUnreadableGlobsWithCwd host.toLocalHost cwd = [] := by
  have noPatterns : policy.entries.filterMap
      (FileSystemSandboxPolicy.unreadableGlob host.toLocalHost cwd) = [] := by
    rw [filterMap_eq_nil_iff]
    intro entry mem
    unfold FileSystemSandboxPolicy.unreadableGlob
    split
    next pat isGlob =>
      have notGlob := noGlobs entry mem
      rw [isGlob] at notGlob
      cases notGlob
    · rfl
  unfold FileSystemSandboxPolicy.getUnreadableGlobsWithCwd
  split
  · rfl
  · rw [noPatterns]
    rfl

variable {lib host policy cwd options}

theorem mem_unreadableRoots (noGlobs : HasNoGlobs policy) (path : AbsolutePathBuf) :
    path ∈ unreadableRoots lib host policy cwd options ↔
    path ∈ policy.getUnreadableRootsWithCwd lib host.toLocalHost cwd := by
  rw [unreadableRoots, mem_sortedPaths, getUnreadableGlobsWithCwd_of_noGlobs host cwd noGlobs]
  simp [expandUnreadableGlobsWithRipgrep]

theorem mem_existingWritableRoots (notFull : policy.hasFullDiskWriteAccess lib = false)
    {root : WritableRoot} : root ∈ existingWritableRoots lib host policy cwd ↔
    root ∈ policy.getWritableRootsWithCwd lib host.toLocalHost cwd ∧
    host.pathExists root.root = true := by
  simp [existingWritableRoots, notFull]

variable (root : WritableRoot)

theorem mem_sortedWritableRoots : root ∈ sortedWritableRoots lib host policy cwd ↔
      root ∈ existingWritableRoots lib host policy cwd :=
  mem_insertionSort _

theorem mem_allowedWritePaths (mem : root ∈ existingWritableRoots lib host policy cwd) :
    root.root ∈ allowedWritePaths lib host policy cwd :=
  mem_map.mpr ⟨root, mem, rfl⟩

theorem mem_metadataPathMasks (subpaths : List AbsolutePathBuf) (root : AbsolutePathBuf)
    (names : List Text) (path : AbsolutePathBuf) : path ∈ metadataPathMasks subpaths root names ↔
    path ∈ subpaths ∨ ∃ name ∈ names, path = root.push name := by
  unfold metadataPathMasks
  induction names generalizing subpaths with
  | nil => simp
  | cons name rest ih =>
    rw [foldl_cons, ih]
    split
    next here =>
      rw [contains_iff_mem] at here
      constructor
      · rintro (inSubpaths | ⟨other, mem, same⟩)
        · exact .inl inSubpaths
        · exact .inr ⟨other, mem_cons_of_mem _ mem, same⟩
      · rintro (inSubpaths | ⟨other, mem, same⟩)
        · exact .inl inSubpaths
        · rcases mem_cons.mp mem with rfl | mem
          · exact .inl (same ▸ here)
          · exact .inr ⟨other, mem, same⟩
    · simp [or_assoc]

variable (path : AbsolutePathBuf)

theorem mem_subpathsToMount : path ∈ subpathsToMount lib host policy cwd options root ↔
    (path ∈ root.readOnlySubpaths ∧ path ∉ unreadableRoots lib host policy cwd options ∧
    path ∉ missingAutoMetadataSubpaths host policy cwd) ∨
    ∃ name ∈ root.protectedMetadataNames, path = root.root.push name := by
  simp only [subpathsToMount, mem_sortedByDepth, mem_metadataPathMasks, mem_filter,
    Bool.not_eq_true', contains_eq_mem, decide_eq_false_iff_not, and_assoc]

/-- The masks for denied paths hide, and they mount on these paths or where nothing exists. -/
theorem of_mem_masks {may paths : List AbsolutePathBuf} {op : BwrapOperation}
    (mem : op ∈ (sortedByDepth paths).flatMap (unreadableRootArgs host may)) :
    op.hides = true ∧ ∀ mount, op.target = some mount →
    mount ∈ paths ∨ host.pathExists mount = false := by
  obtain ⟨denied, rootMem, isIn⟩ := mem_flatMap.mp mem
  obtain ⟨hides, mounts⟩ :=
    of_mem_unreadableRootArgs host may denied op isIn
  refine ⟨hides, fun mount same => ?_⟩
  rcases mounts mount same with rfl | missing
  · exact .inl ((mem_sortedByDepth _ _).mp rootMem)
  · exact .inr missing

theorem exists_covering_masks (tree : HasTree host) (may paths : List AbsolutePathBuf)
    (denied path : AbsolutePathBuf) (mem : denied ∈ paths)
    (below : path.startsWith denied = true) (placed : host.pathExists denied = true ∨
    ∃ root ∈ may, host.pathExists root = true ∧ denied.startsWith root = true) :
    ∃ op ∈ (sortedByDepth paths).flatMap (unreadableRootArgs host may), op.covers path = true := by
  obtain ⟨op, isIn, covers⟩ := exists_covering_unreadableRootArgs host tree may
    denied path below placed
  exact ⟨op, mem_flatMap.mpr ⟨denied, (mem_sortedByDepth _ _).mpr mem, isIn⟩, covers⟩

theorem of_mem_wslgDistroArgs {may : List AbsolutePathBuf} {op : BwrapOperation}
    (mem : op ∈ wslgDistroArgs lib host policy cwd options may) :
    op.hides = true ∧ ∀ mount, op.target = some mount →
    mount = wslgDistroRoot ∧ options.maskWslgDistro = true := by
  unfold wslgDistroArgs at mem
  split at mem
  next masks =>
    rw [Bool.and_eq_true] at masks
    simp only [mem_cons, not_mem_nil, or_false] at mem
    rcases mem with rfl | rfl | rfl
    · exact ⟨rfl, fun mount none => by cases none⟩
    · exact ⟨rfl, fun mount same => ⟨(Option.some.inj same).symm, masks.1⟩⟩
    · exact ⟨rfl, fun mount none => by cases none⟩
  · cases mem

theorem of_mem_readableRootArgs {root : AbsolutePathBuf} {ops : List BwrapOperation}
    (built : readableRootArgs host root = .ok ops) {op : BwrapOperation}
    (mem : op ∈ ops) (shows : op.hides = false) : op = .roBind root := by
  unfold readableRootArgs at built
  split at built
  · obtain ⟨mask, masked, rest⟩ := bind_eq_ok built
    cases rest
    rcases mem_cons.mp mem with same | inMask
    · exact same
    · rw [((of_daemonSocketMask_eq_ok masked).2 op inMask).1] at shows
      cases shows
  · cases built
    cases mem

theorem of_mem_baseArgs {base : List BwrapOperation}
    (built : baseArgs lib host policy cwd = .ok base) {op : BwrapOperation}
    (mem : op ∈ base) (shows : op.hides = false) :
    (op = .roBind .root ∧ policy.hasFullDiskReadAccess = true) ∨
    ∃ root ∈ readableRoots lib host policy cwd, op = .roBind root := by
  unfold baseArgs at built
  split at built
  next whole =>
    obtain ⟨mask, masked, rest⟩ := bind_eq_ok built
    cases rest
    rcases mem_append.mp mem with inBase | inMask
    · simp only [mem_cons, not_mem_nil, or_false] at inBase
      rcases inBase with rfl | rfl
      · rw [Bool.or_eq_true] at whole
        rcases whole with full | readable
        · exact .inl ⟨rfl, full⟩
        · exact .inr ⟨_, contains_iff_mem.mp readable, rfl⟩
      · cases shows
    · rw [((of_daemonSocketMask_eq_ok masked).2 op inMask).1] at shows
      cases shows
  · obtain ⟨results, mount, rest⟩ := bind_eq_ok built
    cases rest
    obtain ⟨resultOf, flattened, succeeded⟩ := exists_of_mapM_eq_ok _ _ results mount
    rw [flattened] at mem
    rcases mem_append.mp mem with inBase | inRoots
    · simp only [mem_cons, not_mem_nil, or_false] at inBase
      rcases inBase with rfl | rfl
      · cases shows
      · cases shows
    · obtain ⟨root, rootMem, isIn⟩ := mem_flatMap.mp inRoots
      exact .inr ⟨root, rootMem, of_mem_readableRootArgs (succeeded root rootMem) isIn shows⟩

/-- An operation that shows a path and governs it is in the base view, or in the last block of a
writable root that covers the path. -/
theorem governing_cases (op : BwrapOperation)
    (built : createFilesystemArgs lib host policy cwd options = .ok ops)
    (gov : governing (BwrapOperation.covers path) ops = some op)
    (shows : op.hides = false) : (∃ pre root after block,
    sortedWritableRoots lib host policy cwd = pre ++ root :: after ∧
    writableRootArgs lib host policy cwd options (allowedWritePaths lib host policy cwd) root =
    .ok block ∧ governing (BwrapOperation.covers path) block = some op ∧
    ∀ later ∈ after, path.startsWith later.root = false) ∨
    ∃ base, baseArgs lib host policy cwd = .ok base ∧ op ∈ base ∧
    op.covers path = true ∧ (∀ other ∈ unreadableAncestorArgs lib host policy cwd options
    (allowedWritePaths lib host policy cwd), other.covers path = false) ∧
    (∀ root ∈ existingWritableRoots lib host policy cwd,
    ∀ other ∈ nestedUnreadableArgs lib host policy cwd options
    (allowedWritePaths lib host policy cwd) root.root, other.covers path = false) ∧
    ∀ other ∈ rootlessUnreadableArgs lib host policy cwd options
    (allowedWritePaths lib host policy cwd), other.covers path = false := by
  obtain ⟨base, blockOf, baseBuilt, blocksBuilt, rfl⟩ :=
    of_createFilesystemArgs_eq_ok built
  have notHidden : ∀ part : List BwrapOperation, (∀ other ∈ part, other.hides = true) →
      op ∉ part := by
    intro part hidden mem
    rw [hidden op mem] at shows
    cases shows
  obtain ⟨gov, _⟩ := governing_append_of_not_mem gov (notHidden _ fun other mem =>
    (of_mem_wslgDistroArgs mem).1)
  obtain ⟨gov, rootless⟩ := governing_append_of_not_mem gov (notHidden _ fun other mem =>
    (of_mem_masks mem).1)
  rcases governing_append_cases gov with inBlocks | ⟨gov, blocks⟩
  · left
    obtain ⟨pre, root, after, split, inBlock, later⟩ := governing_flatMap_cases blockOf inBlocks
    refine ⟨pre, root, after, blockOf root, split, blocksBuilt root (by rw [split]; simp),
      inBlock, fun other mem => ?_⟩
    obtain ⟨mask, readOnlyOf, _, _, block⟩ :=
      of_writableRootArgs_eq_ok (blocksBuilt other (by rw [split]; simp [mem]))
    exact later other mem (.bind other.root) (by rw [block]; simp)
  · right
    obtain ⟨gov, ancestors⟩ := governing_append_of_not_mem gov
      (notHidden _ fun other mem => (of_mem_masks mem).1)
    obtain ⟨inBase, covers⟩ := of_governing gov
    refine ⟨base, baseBuilt, inBase, covers, ancestors, fun root mem other isIn => ?_, rootless⟩
    have isSorted := (mem_sortedWritableRoots root).mpr mem
    obtain ⟨mask, readOnlyOf, _, _, block⟩ := of_writableRootArgs_eq_ok (blocksBuilt root isSorted)
    exact blocks other (mem_flatMap.mpr ⟨root, isSorted, by
      rw [block]
      exact mem_append_right _ isIn⟩)

variable {path} in
/-- A writable root whose block governs a path is the deepest one that contains the path. -/
theorem deepest_of_sorted {pre after : List WritableRoot} {root other : WritableRoot}
    (split : sortedWritableRoots lib host policy cwd = pre ++ root :: after)
    (later : ∀ other ∈ after, path.startsWith other.root = false)
    (mem : other ∈ existingWritableRoots lib host policy cwd)
    (below : path.startsWith other.root = true) : pathDepth other.root ≤ pathDepth root.root := by
  have sorted : (sortedWritableRoots lib host policy cwd).Pairwise fun first second =>
    pathDepth first.root ≤ pathDepth second.root := pairwise_insertionSort _ _
  rw [split] at sorted
  have inSorted := (mem_sortedWritableRoots other).mpr mem
  rw [split] at inSorted
  rcases mem_append.mp inSorted with inBefore | inRest
  · exact (pairwise_append.mp sorted).2.2 other inBefore root (mem_cons_self ..)
  · rcases mem_cons.mp inRest with rfl | inAfter
    · exact Nat.le_refl _
    · rw [later other inAfter] at below
      cases below

/-- Denied paths below the root of a block do not contain a path that the block shows. -/
theorem not_below_nested (tree : HasTree host) {root : WritableRoot} (path : AbsolutePathBuf)
    (notFull : policy.hasFullDiskWriteAccess lib = false)
    (mem : root ∈ existingWritableRoots lib host policy cwd)
    (bare : ∀ other ∈ nestedUnreadableArgs lib host policy cwd options
    (allowedWritePaths lib host policy cwd) root.root, other.covers path = false)
    {denied : AbsolutePathBuf}
    (unread : denied ∈ unreadableRoots lib host policy cwd options)
    (below : denied.startsWith root.root = true) : path.startsWith denied = false := by
  by_contra isIn
  obtain ⟨op, masked, covers⟩ := exists_covering_masks tree (allowedWritePaths lib host policy cwd)
    ((unreadableRoots lib host policy cwd options).filter fun other => other.startsWith root.root)
    denied path (mem_filter.mpr ⟨unread, below⟩) (by simpa using isIn)
    (.inr ⟨root.root, mem_allowedWritePaths root mem,
      ((mem_existingWritableRoots notFull).mp mem).2, below⟩)
  rw [bare op masked] at covers
  cases covers

theorem target_of_mem_maskedParentArgs {root : AbsolutePathBuf} {op : BwrapOperation}
    (mem : op ∈ maskedParentArgs lib host policy cwd options root) :
    op.hides = true ∧ op.target = none := by
  unfold maskedParentArgs at mem
  split at mem
  · exact target_of_mem_mountTargetParentDirArgs mem
  · cases mem

/-- What the block of a writable root shows: the root where no read-only path below it covers, a
read-only path, or the registry. -/
theorem governing_block (tree : HasTree host) {root : WritableRoot} {block : List BwrapOperation}
    {path : AbsolutePathBuf} {op : BwrapOperation}
    (notFull : policy.hasFullDiskWriteAccess lib = false)
    (mem : root ∈ existingWritableRoots lib host policy cwd)
    (built : writableRootArgs lib host policy cwd options (allowedWritePaths lib host policy cwd)
    root = .ok block) (gov : governing (BwrapOperation.covers path) block = some op)
    (shows : op.hides = false) : (∀ other ∈ nestedUnreadableArgs lib host policy cwd options
    (allowedWritePaths lib host policy cwd) root.root, other.covers path = false) ∧
    ((op = .bind root.root ∧ ∀ sub ∈ subpathsToMount lib host policy cwd options root,
    sub.startsWith root.root = true → path.startsWith sub = false) ∨
    (∃ sub ∈ subpathsToMount lib host policy cwd options root, op = .roBind sub) ∨
    ∃ mount, op = .roBind mount ∧ mount.startsWith host.registryRoot = true) := by
  obtain ⟨mask, readOnlyOf, masked, readOnlyBuilt, rfl⟩ :=
    of_writableRootArgs_eq_ok built
  have notHidden : ∀ part : List BwrapOperation, (∀ other ∈ part, other.hides = true) →
      op ∉ part := by
    intro part hidden isIn
    rw [hidden op isIn] at shows
    cases shows
  obtain ⟨gov, nested⟩ := governing_append_of_not_mem gov (notHidden _ fun other isIn =>
    (of_mem_masks isIn).1)
  refine ⟨nested, ?_⟩
  rcases governing_append_cases gov with inRegistry | ⟨gov, _⟩
  · obtain ⟨mount, same, isIn, _⟩ :=
      mem_registryArgs (of_governing inRegistry).1
    exact .inr (.inr ⟨mount, same, isIn⟩)
  · rcases governing_append_cases gov with inReadOnly | ⟨gov, readOnly⟩
    · obtain ⟨sub, subpathMem, isIn⟩ :=
        mem_flatMap.mp (of_governing inReadOnly).1
      rcases (isReadOnlyOperation_of_mem (readOnlyBuilt sub subpathMem) isIn).1 with same | hidden
      · exact .inr (.inl ⟨sub, subpathMem, same⟩)
      · rw [hidden] at shows
        cases shows
    · obtain ⟨gov, _⟩ := governing_append_of_not_mem gov (notHidden _ fun other isIn =>
        ((of_daemonSocketMask_eq_ok masked).2 other isIn).1)
      left
      rcases governing_append_cases gov with isBind | ⟨inParents, _⟩
      · refine ⟨mem_singleton.mp (of_governing isBind).1, fun sub subpathMem below =>
          ?_⟩
        by_contra isIn
        obtain ⟨other, otherMem, covers⟩ := exists_covering_readOnlySubpathArgs tree
          (readOnlyBuilt sub subpathMem) (by simpa using isIn)
          (mem_allowedWritePaths root mem)
          ((mem_existingWritableRoots notFull).mp mem).2 below
        rw [readOnly other (mem_flatMap.mpr ⟨sub, subpathMem, otherMem⟩)] at covers
        cases covers
      · exact absurd (of_governing inParents).1 (notHidden _ fun other isIn =>
          (target_of_mem_maskedParentArgs isIn).1)

end

end CodexFormal.LinuxSandbox
