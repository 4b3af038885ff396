import CodexFormal.Foundation.Overlay
import CodexFormal.LinuxSandbox.MountPlan

/-!
# What the operations of a mount plan cover

The overlay of a mount plan: the last mount whose target contains a path governs
it.  Masks hide what they cover, and every read-only or denied path below an
existing writable root is covered by the operations made for it.
-/

set_option autoImplicit false

namespace CodexFormal.LinuxSandbox

open Foundation Uri Permissions List AbsolutePathBuf Option

namespace BwrapOperation

/-- Where something is mounted; the other operations do not mount. -/
def target : BwrapOperation → Option AbsolutePathBuf
  | bind path => some path
  | roBind path => some path
  | roBindData path => some path
  | tmpfs path => some path
  | dev path => some path
  | dir _ => none
  | perms _ => none
  | remountRo _ => none

def covers (path : AbsolutePathBuf) (operation : BwrapOperation) : Bool :=
  match operation.target with
  | some mounted => path.startsWith mounted
  | none => false

/-- The operation shows no file of the host. -/
def hides : BwrapOperation → Bool
  | bind _ => false
  | roBind _ => false
  | _ => true

theorem covers_iff (path : AbsolutePathBuf) (operation : BwrapOperation) :
    operation.covers path = true ↔
    ∃ mount, operation.target = some mount ∧ path.startsWith mount = true := by
  unfold covers
  cases operation.target with
  | _ => simp

end BwrapOperation

variable (operations : List BwrapOperation)

/-- The path can be read and written as on the host. -/
def makesWritable (path : AbsolutePathBuf) : Bool :=
  match governing (BwrapOperation.covers path) operations with
  | some (.bind _) => true
  | _ => false

/-- The file of the host can be read. -/
def makesReadable (path : AbsolutePathBuf) : Bool :=
  match governing (BwrapOperation.covers path) operations with
  | some operation => !operation.hides
  | none => false

theorem bind_eq_ok {ε α β : Type} {first : Except ε α} {next : α → Except ε β} {result : β}
    (runs : (first >>= next) = .ok result) :
    ∃ value, first = .ok value ∧ next value = .ok result := by
  cases first with
  | error error => cases runs
  | ok value => exact ⟨value, rfl, runs⟩

/-- What exists is below directories that exist. -/
def HasTree (host : SandboxHost) : Prop :=
  ∀ path base : AbsolutePathBuf, path.startsWith base = true → host.pathExists path = true →
    host.pathExists base = true

section

variable (host : SandboxHost) (path : AbsolutePathBuf)

theorem startsWith_take (count : Nat) : path.startsWith (path.take count) = true :=
  (startsWith_iff _ _).mpr <| take_prefix count path.names

variable {host} in
theorem findFirstNonExistentComponent_of_missing (tree : HasTree host)
    {path base : AbsolutePathBuf} (below : path.startsWith base = true)
    (baseExists : host.pathExists base = true) (missing : host.pathExists path = false) :
    ∃ part, findFirstNonExistentComponent host path = some part ∧
    path.startsWith part = true ∧ part.startsWith base = true ∧ host.pathExists part = false := by
  have named : path.names ≠ [] := by
    intro atRoot
    have same := eq_of_startsWith below (by simp [atRoot])
    rw [same, baseExists] at missing
    cases missing
  have whole : path.take (path.names.length - 1 + 1) = path := by
    refine ext_names (take_of_length_le ?_)
    omega
  have isIn : path ∈ (List.range path.names.length).map fun count => path.take (count + 1) := by
    refine mem_map.mpr ⟨path.names.length - 1, mem_range.mpr ?_, whole⟩
    have := length_pos_iff.mpr named
    omega
  cases scan : findFirstNonExistentComponent host path with
  | none =>
    have found := find?_eq_none.mp scan path isIn
    simp [missing] at found
  | some part =>
    have componentMissing : host.pathExists part = false := by
      simpa using find?_some scan
    obtain ⟨count, _, rfl⟩ := mem_map.mp (mem_of_find?_eq_some scan)
    have above := startsWith_take path (count + 1)
    refine ⟨_, rfl, above, ?_, componentMissing⟩
    refine startsWith_of_length_le below above ?_
    by_contra longer
    have higher := startsWith_of_length_le above below (by omega)
    rw [tree _ _ higher baseExists] at componentMissing
    cases componentMissing

variable (may : List AbsolutePathBuf)

variable {path may} in
theorem isWithinAllowedWritePaths_iff : isWithinAllowedWritePaths path may = true ↔
    ∃ root ∈ may, path.startsWith root = true := by
  simp [isWithinAllowedWritePaths]

variable {host} in
theorem target_of_mem_mountTargetParentDirArgs {mountTarget anchor : AbsolutePathBuf}
    {operation : BwrapOperation}
    (mem : operation ∈ mountTargetParentDirArgs host mountTarget anchor) :
    operation.hides = true ∧ operation.target = none := by
  unfold mountTargetParentDirArgs at mem
  have isDir : ∀ directory, operation ∈ mountTargetDirs directory anchor →
      operation.hides = true ∧ operation.target = none := by
    intro directory isIn
    obtain ⟨created, _, rfl⟩ := mem_map.mp isIn
    exact ⟨rfl, rfl⟩
  split at mem
  · exact isDir _ mem
  · split at mem
    · exact isDir _ mem
    · cases mem

/-- The operations for a denied path hide, and they mount on the path or where nothing exists. -/
theorem of_mem_unreadableRootArgs (denied : AbsolutePathBuf) (operation : BwrapOperation)
    (mem : operation ∈ unreadableRootArgs host may denied) :
    operation.hides = true ∧ ∀ mount, operation.target = some mount →
    mount = denied ∨ host.pathExists mount = false := by
  unfold unreadableRootArgs at mem
  split at mem
  · unfold existingUnreadablePathArgs at mem
    split at mem
    · simp only [mem_append, mem_cons, not_mem_nil, or_false, mem_flatMap] at mem
      rcases mem with ((rfl | rfl) | ⟨descendant, _, isDir⟩) | rfl
      · exact ⟨rfl, fun mount none => by cases none⟩
      · exact ⟨rfl, fun mount same => .inl (some.inj same).symm⟩
      · obtain ⟨hides, none⟩ :=
          target_of_mem_mountTargetParentDirArgs isDir
        exact ⟨hides, fun mount same => by rw [none] at same; cases same⟩
      · exact ⟨rfl, fun mount none => by cases none⟩
    · simp only [mem_cons, not_mem_nil, or_false] at mem
      rcases mem with rfl | rfl
      · exact ⟨rfl, fun mount none => by cases none⟩
      · exact ⟨rfl, fun mount same => .inl (some.inj same).symm⟩
  · split at mem
    next part scan =>
      split at mem
      · rw [mem_singleton] at mem
        subst mem
        refine ⟨rfl, fun mount same => .inr ?_⟩
        cases same
        simpa using find?_some scan
      · cases mem
    · cases mem

theorem exists_covering_unreadableRootArgs (tree : HasTree host) (may : List AbsolutePathBuf)
    (denied path : AbsolutePathBuf) (below : path.startsWith denied = true)
    (placed : host.pathExists denied = true ∨
    ∃ root ∈ may, host.pathExists root = true ∧ denied.startsWith root = true) :
    ∃ operation ∈ unreadableRootArgs host may denied, operation.covers path = true := by
  unfold unreadableRootArgs
  by_cases pathExists : host.pathExists denied = true
  · rw [if_pos pathExists]
    unfold existingUnreadablePathArgs
    split
    · exact ⟨.tmpfs denied, by simp, below⟩
    · exact ⟨.roBindData denied, by simp, below⟩
  · obtain ⟨root, mem, rootExists, belowRoot⟩ := placed.resolve_left pathExists
    obtain ⟨part, scan, above, belowBase, _⟩ :=
      findFirstNonExistentComponent_of_missing tree belowRoot rootExists (by simpa using pathExists)
    have within := isWithinAllowedWritePaths_iff.mpr ⟨root, mem, belowBase⟩
    rw [if_neg pathExists, scan]
    dsimp only
    rw [if_pos within]
    exact ⟨.roBindData part, mem_singleton_self _, startsWith_trans below above⟩

variable {host} in
theorem of_daemonSocketMask_eq_ok {mountRoot : AbsolutePathBuf} {operations : List BwrapOperation}
    (masked : daemonSocketMask host mountRoot = .ok operations) :
    mountRoot.startsWith host.daemonDirectory = false ∧
    ∀ operation ∈ operations, operation.hides = true ∧
    ∀ mount, operation.target = some mount → mount = host.daemonDirectory := by
  unfold daemonSocketMask at masked
  split at masked
  · cases masked
  next out =>
    refine ⟨by simpa using out, ?_⟩
    split at masked
    · cases masked
      intro operation mem
      simp only [mem_cons, not_mem_nil, or_false] at mem
      rcases mem with rfl | rfl | rfl
      · exact ⟨rfl, fun mount none => by cases none⟩
      · exact ⟨rfl, fun mount same => (some.inj same).symm⟩
      · exact ⟨rfl, fun mount none => by cases none⟩
    · cases masked
      intro operation mem
      cases mem

variable (operation : BwrapOperation)

theorem of_mem_emptyDirectoryArgs (mem : operation ∈ emptyDirectoryArgs path) :
    operation.hides = true ∧ ∀ mount, operation.target = some mount → mount = path := by
  simp only [emptyDirectoryArgs, mem_cons, not_mem_nil, or_false] at mem
  rcases mem with rfl | rfl | rfl
  · exact ⟨rfl, fun mount none => by cases none⟩
  · exact ⟨rfl, fun mount same => (some.inj same).symm⟩
  · exact ⟨rfl, fun mount none => by cases none⟩

theorem of_mem_missingReadOnlySubpathArgs (mem : operation ∈ missingReadOnlySubpathArgs path) :
    operation.hides = true ∧ ∀ mount, operation.target = some mount → mount = path := by
  unfold missingReadOnlySubpathArgs at mem
  split at mem
  · exact of_mem_emptyDirectoryArgs path operation mem
  · rw [mem_singleton] at mem
    subst mem
    exact ⟨rfl, fun mount same => (some.inj same).symm⟩

theorem of_mem_transientMetadataArgs
    (metadata : EmptyProtectedMetadataPath) (operation : BwrapOperation)
    (mem : operation ∈ transientMetadataArgs path metadata) :
    operation.hides = true ∧ ∀ mount, operation.target = some mount → mount = path := by
  cases metadata with
  | file =>
    rw [transientMetadataArgs, mem_singleton] at mem
    subst mem
    exact ⟨rfl, fun mount same => (some.inj same).symm⟩
  | directory => exact of_mem_emptyDirectoryArgs path operation mem

/-- The operations for a read-only path show that path or hide, and they mount on the path, where
nothing exists, or on the directory of the sockets. -/
def IsReadOnlyOperation (subpath : AbsolutePathBuf) (operation : BwrapOperation) : Prop :=
  (operation = .roBind subpath ∨ operation.hides = true) ∧
    ∀ mounted, operation.target = some mounted →
      mounted = subpath ∨ host.pathExists mounted = false ∨ mounted = host.daemonDirectory

variable {host may} in
theorem isReadOnlyOperation_of_settled {sub : AbsolutePathBuf} {operations : List BwrapOperation}
    (built : settledSubpathArgs host may sub = .ok operations)
    {operation : BwrapOperation} (mem : operation ∈ operations) :
    IsReadOnlyOperation host sub operation := by
  unfold settledSubpathArgs at built
  split at built
  · split at built
    next part scan =>
      have missing : host.pathExists part = false := by
        simpa using find?_some scan
      split at built
      · cases built
        obtain ⟨hides, mounts⟩ := of_mem_missingReadOnlySubpathArgs part operation mem
        exact ⟨.inr hides, fun mount same =>
          Or.inr (.inl (mounts mount same ▸ missing))⟩
      · cases built
        cases mem
    · cases built
      cases mem
  · split at built
    · obtain ⟨mask, masked, rest⟩ := bind_eq_ok built
      cases rest
      rcases mem_cons.mp mem with rfl | inMask
      · exact ⟨.inl rfl, fun mount same => .inl (some.inj same).symm⟩
      · obtain ⟨hides, mounts⟩ :=
          (of_daemonSocketMask_eq_ok masked).2 operation inMask
        exact ⟨.inr hides, fun mount same => .inr (.inr (mounts mount same))⟩
    · cases built
      cases mem

variable {host may} in
theorem isReadOnlyOperation_of_mem {sub : AbsolutePathBuf} {operations : List BwrapOperation}
    (built : readOnlySubpathArgs host may sub = .ok operations)
    {operation : BwrapOperation} (mem : operation ∈ operations) :
    IsReadOnlyOperation host sub operation := by
  unfold readOnlySubpathArgs at built
  split at built
  next metadata _ =>
    split at built
    · cases built
      obtain ⟨hides, mounts⟩ := of_mem_transientMetadataArgs sub metadata operation mem
      exact ⟨.inr hides, fun mount same => .inl (mounts mount same)⟩
    · exact isReadOnlyOperation_of_settled built mem
  · exact isReadOnlyOperation_of_settled built mem

variable {host} in
theorem exists_covering_readOnlySubpathArgs (tree : HasTree host) {may : List AbsolutePathBuf}
    {sub path root : AbsolutePathBuf} {operations : List BwrapOperation}
    (built : readOnlySubpathArgs host may sub = .ok operations)
    (below : path.startsWith sub = true) (isAllowed : root ∈ may)
    (rootExists : host.pathExists root = true) (belowRoot : sub.startsWith root = true) :
    ∃ operation ∈ operations, operation.covers path = true := by
  have within := isWithinAllowedWritePaths_iff.mpr ⟨root, isAllowed, belowRoot⟩
  have settled : settledSubpathArgs host may sub = .ok operations →
      ∃ operation ∈ operations, operation.covers path = true := by
    intro built
    cases here : host.pathExists sub with
    | false =>
      obtain ⟨part, scan, above, belowBase, _⟩ :=
        findFirstNonExistentComponent_of_missing tree belowRoot rootExists here
      have componentWithin := isWithinAllowedWritePaths_iff.mpr ⟨root, isAllowed, belowBase⟩
      simp only [settledSubpathArgs, here, Bool.not_false, if_true, scan, componentWithin,
        Except.ok.injEq] at built
      subst built
      have covered := startsWith_trans below above
      unfold missingReadOnlySubpathArgs emptyDirectoryArgs
      split
      · exact ⟨.tmpfs part, by simp, covered⟩
      · exact ⟨.roBindData part, by simp, covered⟩
    | true =>
      simp only [settledSubpathArgs, here, Bool.not_true, Bool.false_eq_true, if_false, within,
        if_true] at built
      obtain ⟨mask, _, rest⟩ := bind_eq_ok built
      cases rest
      exact ⟨.roBind sub, mem_cons_self .., below⟩
  unfold readOnlySubpathArgs at built
  split at built
  next metadata _ =>
    rw [if_pos within] at built
    cases built
    cases metadata with
    | file => exact ⟨.roBindData sub, mem_singleton_self _, below⟩
    | directory =>
      exact ⟨.tmpfs sub, by simp [transientMetadataArgs, emptyDirectoryArgs], below⟩
  · exact settled built

variable {host} in
theorem mem_registryArgs {mountRoot : AbsolutePathBuf} {operation : BwrapOperation}
    (mem : operation ∈ registryArgs host mountRoot) :
    ∃ mount, operation = .roBind mount ∧ mount.startsWith host.registryRoot = true ∧
    (mount = host.registryRoot ∨ mount = mountRoot) := by
  unfold registryArgs at mem
  split at mem
  · exact ⟨_, mem_singleton.mp mem, startsWith_refl _, .inl rfl⟩
  · split at mem
    next isIn =>
      exact ⟨_, mem_singleton.mp mem, isIn, .inr rfl⟩
    · cases mem

end

end CodexFormal.LinuxSandbox
