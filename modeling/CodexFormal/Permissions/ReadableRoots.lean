import Mathlib.Data.List.Sort
import CodexFormal.Permissions.WritableRoots

/-!
# Readable and unreadable roots

The paths that the entries of a policy let be read, and those that they deny, as
the platform sandboxes are told about them.
-/

set_option autoImplicit false

namespace CodexFormal.Permissions

open Foundation Uri List PathUri AbsolutePathBuf
open Patch (Text)

def lexicographicLt {α : Type} (lt : α → α → Bool) : List α → List α → Bool
  | _, [] => false
  | [], _ :: _ => true
  | first :: rest, other :: others =>
    lt first other || (!lt other first && lexicographicLt lt rest others)

def textLt (first second : Text) : Bool :=
  lexicographicLt (fun c d => decide (c.toNat < d.toNat)) first second

def pathLe (first second : AbsolutePathBuf) : Bool :=
  !lexicographicLt textLt second.names first.names

namespace FileSystemSandboxPolicy

variable (lib : UrlLibrary) (host : LocalHost) (policy : FileSystemSandboxPolicy)
  (cwd : AbsolutePathBuf)

def includePlatformDefaults : Bool :=
  !hasFullDiskReadAccess policy && policy.kind == .restricted &&
    policy.entries.any fun entry => entry.path == .special .minimal && entry.access.canRead

def getReadableRootsWithCwd : List AbsolutePathBuf :=
  if hasFullDiskReadAccess policy then []
  else
    let entries := ((resolvedEntriesWithCwd lib host policy cwd).filter fun entry =>
      entry.access.canRead).filter fun entry =>
        canReadLocalPathWithCwd lib host policy entry.path.toText cwd
    (entries.map fun entry => host.normalizeEffectiveAbsolutePath entry.path).eraseDups

/-- The root of the file system is left out, for a mask there would hide what is granted below. -/
def getUnreadableRootsWithCwd : List AbsolutePathBuf :=
  if policy.kind ≠ .restricted then []
  else
    let entries := (((resolvedEntriesWithCwd lib host policy cwd).filter fun entry =>
      entry.access == .deny).filter fun entry =>
        !canReadLocalPathWithCwd lib host policy entry.path.toText cwd).filter fun entry =>
          entry.path != AbsolutePathBuf.root
    (entries.map fun entry => host.normalizeEffectiveAbsolutePath entry.path).eraseDups

def unreadableGlob (entry : FileSystemSandboxEntry) : Option Text :=
  match entry.path with
  | .globPattern pattern =>
    if entry.access = .deny then some (host.resolvePathAgainstBase pattern cwd).toText else none
  | _ => none

def getUnreadableGlobsWithCwd : List Text :=
  if policy.kind ≠ .restricted then []
  else ((policy.entries.filterMap (unreadableGlob host cwd)).insertionSort fun first second =>
    textLt second first = false).eraseDups

theorem mem_getReadableRootsWithCwd (noSymlinks : host.HasNoSymlinks) (path : AbsolutePathBuf)
    (mem : path ∈ getReadableRootsWithCwd lib host policy cwd) :
    canReadLocalPathWithCwd lib host policy path.toText cwd = true := by
  unfold getReadableRootsWithCwd at mem
  split at mem
  · cases mem
  · rw [mem_eraseDups, mem_map] at mem
    obtain ⟨entry, kept, rfl⟩ := mem
    rw [noSymlinks]
    exact (mem_filter.mp kept).2

variable {lib host policy cwd} in
theorem mem_getUnreadableRootsWithCwd (noSymlinks : host.HasNoSymlinks) {path : AbsolutePathBuf} :
    path ∈ getUnreadableRootsWithCwd lib host policy cwd ↔ policy.kind = .restricted ∧
    (⟨path, .deny⟩ : ResolvedFileSystemEntry) ∈ resolvedEntriesWithCwd lib host policy cwd ∧
    canReadLocalPathWithCwd lib host policy path.toText cwd = false ∧ path ≠ root := by
  unfold getUnreadableRootsWithCwd
  split
  next unrestricted =>
    simp [unrestricted]
  next restricted =>
    rw [not_not] at restricted
    rw [mem_eraseDups, mem_map]
    simp only [mem_filter, restricted, true_and]
    constructor
    · rintro ⟨⟨other, mode⟩, ⟨⟨⟨entry, denies⟩, unreadable⟩, notRoot⟩, same⟩
      rw [noSymlinks] at same
      subst same
      cases beq_iff_eq.mp denies
      exact ⟨entry, by simpa using unreadable, by simpa using notRoot⟩
    · rintro ⟨entry, unreadable, notRoot⟩
      exact ⟨⟨path, .deny⟩, ⟨⟨⟨entry, rfl⟩, by simpa using unreadable⟩, by simpa using notRoot⟩,
        noSymlinks path⟩

variable {lib host policy cwd} in
theorem canReadLocal_iff {path : AbsolutePathBuf} :
    canReadLocalPathWithCwd lib host policy path.toText cwd = true ↔
    resolveAccess lib policy (.fromAbsPath lib path) (localPolicyContext lib host cwd) ≠ .deny := by
  rw [canReadLocalPathWithCwd, host.resolveCandidatePath_toText, FileSystemAccessMode.canRead,
    bne_iff_ne]

variable {lib host policy cwd} in
theorem exists_unreadableRoot (noSymlinks : host.HasNoSymlinks) {above path : AbsolutePathBuf}
    (restricted : policy.kind = .restricted) (wellFormed : HasWellFormedPaths lib policy)
    (plain : isFallback (.fromAbsPath lib path) = false)
    (alike : NarrowsAlike lib host policy cwd path) (below : path.startsWith above = true)
    (readable : resolveAccess lib policy (.fromAbsPath lib above)
    (localPolicyContext lib host cwd) ≠ .deny)
    (denied : resolveAccess lib policy (.fromAbsPath lib path)
    (localPolicyContext lib host cwd) = .deny) :
    ∃ deniedRoot ∈ getUnreadableRootsWithCwd lib host policy cwd,
    path.startsWith deniedRoot = true ∧ deniedRoot.startsWith above = true := by
  obtain ⟨means, rule, mode, gov, entry, covers, belowAbove, notAbove⟩ :=
    exists_narrowing_entry restricted wellFormed plain alike below
      readable (by rw [denied]; exact readable.symm)
      (by rw [denied]; exact fun writes => by cases writes)
  rw [denied] at mode
  rw [mode] at entry
  refine ⟨means, (mem_getUnreadableRootsWithCwd noSymlinks).mpr
    ⟨restricted, entry, ?_, ?_⟩, covers, belowAbove⟩
  · by_contra canRead
    have given := canReadLocal_iff.mp (by simpa using canRead)
    exact given ((resolveAccess_of_governs restricted gov given).trans mode)
  · rintro rfl
    exact notAbove (eq_of_startsWith belowAbove (Nat.zero_le _))

theorem resolveAccess_of_fullDiskRead (path : AbsolutePathBuf)
    (restricted : policy.kind = .restricted) (full : hasFullDiskReadAccess policy = true)
    (cwdPlain : isFallback (fromAbsPath lib cwd) = false)
    (lex : HasLexicalRoots lib (localEntries lib host policy cwd))
    (plain : isFallback (fromAbsPath lib path) = false) :
    resolveAccess lib policy (fromAbsPath lib path) (localPolicyContext lib host cwd) ≠ .deny := by
  rw [hasFullDiskReadAccess, hasFullDiskReadAccessForConvention, restricted] at full
  simp only [Bool.and_eq_true, Bool.not_eq_true', hasRootAccess,
    hasDeniedReadRestrictionsForConvention, restricted, beq_self_eq_true, Bool.true_and] at full
  obtain ⟨rooted, undenied⟩ := full
  obtain ⟨rootEntry, rootMem, isRoot⟩ := any_eq_true.mp rooted
  rw [Bool.and_eq_true, beq_iff_eq] at isRoot
  have rootDenotes := rootAncestor_denotes lib cwd cwdPlain
  have cwdLoc := (fromAbsPath_denotes cwdPlain).2
  have rootPosix := convention_of_location rootDenotes.2
  have cwdPosix := convention_of_location cwdLoc
  have isEntry : (rootAncestor (fromAbsPath lib cwd), rootEntry.access) ∈
      localEntries lib host policy cwd := by
    refine mem_flatMap.mpr ⟨rootEntry, rootMem, mem_resolvedEntry.mpr
      ⟨?_, rootPosix.trans cwdPosix.symm, rfl⟩⟩
    rw [isRoot.1]
    simp [resolvedPaths, fileSystemRoot, localPolicyContext, lexicalDepth_eq, cwdLoc]
  have isRule : (placeOf root, rootEntry.access) ∈
    localRules lib host policy cwd := mem_rules.mpr ⟨_, isEntry, rootDenotes.2⟩
  rcases givesAccess_resolveAccess policy restricted (isResolvable_local.mpr ⟨cwdPlain, plain⟩)
    (fromAbsPath_denotes plain).2 lex with
    ⟨rule, gov, access⟩ | ⟨_, bare⟩
  · intro denied
    obtain ⟨uri, uriMem, _⟩ := mem_rules.mp gov.mem
    obtain ⟨entry, mem, resolved⟩ := mem_flatMap.mp uriMem
    have denies := (mem_resolvedEntry.mp resolved).2.2
    have found := any_eq_false.mp undenied entry mem
    rw [← denies, access, denied] at found
    simp at found
  · refine absurd ?_ (bare _ isRule)
    exact placeOf_within.mpr ((startsWith_iff _ _).mpr nil_prefix)

end FileSystemSandboxPolicy

end CodexFormal.Permissions
