import CodexFormal.Permissions.AccessResolution
import CodexFormal.Uri.Descendant

/-!
# Protected metadata

A path in a protected directory of a writable root can be written only if a
writable root at or below that directory contains it.  The source looks at the
protected directory of the first writable root in the order of the entries that
has one above the path.
-/

set_option autoImplicit false

namespace CodexFormal.Permissions

open Foundation Uri List PathUri
open Patch (Text)
open PercentEncoding (urlLibrary)

section

variable (lib : UrlLibrary) (name : Text)

variable {name} in
theorem isPlainName_of_protected (mem : name ∈ protectedMetadataPathNames) : IsPlainName name := by
  have all : (protectedMetadataPathNames.all fun name =>
    decide (name ≠ [] ∧ name ≠ ['.'] ∧ name ≠ ['.', '.']) &&
    (name.all fun c => decide (c ≠ '/' ∧ c ≠ '\\' ∧ c ≠ ':' ∧ c ≠ '\x00')) &&
    decide (lowercase name = name)) = true := by decide
  have checked := all_eq_true.mp all name mem
  rw [Bool.and_eq_true, Bool.and_eq_true] at checked
  obtain ⟨⟨notDots, plain⟩, lower⟩ := checked
  exact ⟨of_decide_eq_true notDots, fun c isIn => of_decide_eq_true (all_eq_true.mp plain c isIn),
    of_decide_eq_true lower⟩

/-- Every resolved root is a path URI of the source with unambiguous components. -/
def HasPlainRoots (entries : List (PathUri × FileSystemAccessMode)) : Prop :=
  ∀ entry ∈ entries, PathUri.IsValid lib entry.1 ∧
    ∃ place, PathUri.location lib entry.1 = some place

/-- Every resolved root is a fallback or a path URI of the source with unambiguous components. -/
def HasValidRoots (entries : List (PathUri × FileSystemAccessMode)) : Prop :=
  ∀ entry ∈ entries, PathUri.isFallback entry.1 = true ∨
    PathUri.IsValid lib entry.1 ∧ ∃ place, PathUri.location lib entry.1 = some place

variable (path root : PathUri) (place above : Location)

section

variable (loc : location lib path = some place) (valid : IsValid lib root)
  (rootLoc : location lib root = some above)

include loc valid rootLoc

variable {lib path root place above} in
theorem protectedDirectory_eq_some {guarded : PathUri} {name : Text}
    (found : FileSystemSandboxPolicy.protectedDirectory lib path root =
    some (guarded, name)) : joinDescendant lib root name = .ok guarded ∧
    name ∈ protectedMetadataPathNames ∧ location lib guarded = some (above.child name) ∧
    place.Within (above.child name) := by
  obtain ⟨candidate, mem, res⟩ := exists_of_findSome?_eq_some found
  obtain ⟨descendant, joined, _, childLoc⟩ :=
    joinDescendant_name (isPlainName_of_protected mem) valid rootLoc
  rw [joined] at res
  dsimp only at res
  split at res
  next starts =>
    obtain ⟨base, baseLoc, within⟩ :=
      (startsWith_iff loc).mp starts
    rw [childLoc, Option.some.injEq] at baseLoc
    rw [← baseLoc] at within
    rw [Option.some.injEq, Prod.mk.injEq] at res
    obtain ⟨rfl, rfl⟩ := res
    exact ⟨joined, mem, childLoc, within⟩
  · cases res

variable {lib path root place above} in
theorem protectedDirectory_eq_none
    (found : FileSystemSandboxPolicy.protectedDirectory lib path root = none) {name : Text}
    (mem : name ∈ protectedMetadataPathNames) : ¬ place.Within (above.child name) := by
  intro within
  obtain ⟨descendant, joined, _, childLoc⟩ :=
    joinDescendant_name (isPlainName_of_protected mem) valid rootLoc
  have starts := (startsWith_iff loc).mpr ⟨_, childLoc, within⟩
  have missed := findSome?_eq_none_iff.mp found name mem
  simp [joined, starts] at missed

end

theorem joinDescendant_fallback {root : PathUri} {name : Text} (isPlain : IsPlainName name)
    (isFallback : isFallback root = true) :
    ∃ error, joinDescendant lib root name = .error error := by
  cases root with
  | file url => cases isFallback
  | fallback bytes =>
    have failed : ∃ error, PathUri.join lib (.fallback bytes) name = .error error := by
      unfold PathUri.join
      rw [isPlain.noNull, if_neg Bool.false_ne_true, if_neg isPlain.notDots.1]
      cases PathUri.inferPathConvention (.fallback bytes) with
      | none => exact ⟨_, rfl⟩
      | some conv =>
        dsimp only
        rw [fromAbsoluteNativePath_relative lib conv name isPlain.noNull (isPlain.relative conv)]
        cases withoutOwnDrive (.fallback bytes) conv name with
        | error error => exact ⟨error, rfl⟩
        | ok left => exact ⟨_, rfl⟩
    obtain ⟨error, failed⟩ := failed
    exact ⟨error, by rw [joinDescendant, failed]; rfl⟩

theorem protectedDirectory_fallback (isFallback : isFallback root = true) :
    FileSystemSandboxPolicy.protectedDirectory lib path root = none := by
  refine findSome?_eq_none_iff.mpr fun name mem => ?_
  obtain ⟨error, failed⟩ :=
    joinDescendant_fallback lib (isPlainName_of_protected mem) isFallback
  rw [failed]

def HasDeeperWriteRoot (entries : List (PathUri × FileSystemAccessMode)) (place above : Location) :
    Prop :=
  ∃ rule ∈ rules lib entries, rule.2 = .write ∧ place.Within rule.1 ∧ above.depth < rule.1.depth

variable {lib} in
/-- A directory above a path is reopened exactly by the deeper writable roots above the path. -/
theorem reopened_iff (entries : List (PathUri × FileSystemAccessMode)) {path guarded :
  PathUri}
    {place above : Location} {name : Text} (located : location lib path = some place)
    (protectedLoc : location lib guarded = some (above.child name))
    (isIn : place.Within (above.child name)) :
    (∃ entry ∈ entries, entry.2.canWrite = true ∧ PathUri.startsWith lib path entry.1 = true ∧
    PathUri.startsWith lib entry.1 guarded = true) ↔
    HasDeeperWriteRoot lib entries place above := by
  have childDepth := above.depth_child name
  constructor
  · rintro ⟨entry, mem, writes, contains, reopens⟩
    obtain ⟨root, rootLocated, within⟩ :=
      (startsWith_iff located).mp contains
    obtain ⟨upper, upperLocated, below⟩ :=
      (startsWith_iff rootLocated).mp reopens
    cases protectedLoc.symm.trans upperLocated
    refine ⟨(root, entry.2), mem_rules.mpr ⟨entry.1, mem, rootLocated⟩,
      beq_iff_eq.mp writes, within, ?_⟩
    have deeper := below.depth_le
    dsimp only
    omega
  · rintro ⟨rule, mem, writes, within, deeper⟩
    obtain ⟨root, entry, rootLocated⟩ := mem_rules.mp mem
    refine ⟨(root, rule.2), entry, beq_iff_eq.mpr writes,
      (startsWith_iff located).mpr ⟨_, rootLocated, within⟩,
      (startsWith_iff rootLocated).mpr
      ⟨_, protectedLoc, Location.Within.of_depth_le isIn within ?_⟩⟩
    omega

namespace FileSystemSandboxPolicy

/-- A writable entry that has the path in one of its protected directories. -/
def protects (path : PathUri) (entry : PathUri × FileSystemAccessMode) : Bool :=
  entry.2.canWrite && (protectedDirectory lib path entry.1).isSome

section

variable (entries : List (PathUri × FileSystemAccessMode))

/-- A writable root at or below the directory contains the path. -/
def Reopened (path protectedPath : PathUri) : Prop :=
  ∃ other ∈ entries, other.2.canWrite = true ∧ PathUri.startsWith lib path other.1 = true ∧
    PathUri.startsWith lib other.1 protectedPath = true

/-- Every protected directory of a writable root that the path is in is reopened. -/
def AllReopened (path : PathUri) : Prop :=
  ∀ entry ∈ entries, entry.2.canWrite = true → ∀ name ∈ protectedMetadataPathNames,
    ∀ protectedPath, PathUri.joinDescendant lib entry.1 name = .ok protectedPath →
      PathUri.startsWith lib path protectedPath = true → Reopened lib entries path protectedPath

/-- The first entry that protects the path lies at or below every entry whose protected
directory around the path is not reopened. -/
def FirstProtects (path : PathUri) : Prop :=
  ∀ first, entries.find? (protects lib path) = some first →
    ∀ other ∈ entries, ∀ protectedPath name, other.2.canWrite = true →
      protectedDirectory lib path other.1 = some (protectedPath, name) →
      PathUri.startsWith lib first.1 other.1 = true ∨ Reopened lib entries path protectedPath

end

theorem findSome?_filter {α β : Type} (keep : α → Bool) (find : α → Option β) (elems : List α) :
    (elems.filter keep).findSome? find =
    (elems.find? fun elem => keep elem && (find elem).isSome).bind find := by
  induction elems with
  | nil => rfl
  | cons elem rest ih =>
    by_cases kept : keep elem = true
    · cases found : find elem with
      | none => simp [kept, found, ih]
      | some res => simp [kept, found]
    · simp [kept, ih]

variable (entries : List (PathUri × FileSystemAccessMode)) (path : PathUri) (place : Location)

variable {lib path place} in
theorem reopened_iff_of_protectedDirectory {entry : PathUri × FileSystemAccessMode}
    {above : Location} {guarded : PathUri} {name : Text}
    (located : location lib path = some place) (valid : IsValid lib entry.1)
    (entryLoc : location lib entry.1 = some above)
    (found : protectedDirectory lib path entry.1 = some (guarded, name)) :
    Reopened lib entries path guarded ↔ HasDeeperWriteRoot lib entries place above := by
  obtain ⟨_, _, protectedLoc, isIn⟩ :=
    protectedDirectory_eq_some located valid entryLoc found
  exact reopened_iff entries located protectedLoc isIn

variable (policy : FileSystemSandboxPolicy)

variable {lib policy} in
theorem metadataWriteDenial_eq_none {path : PathUri}
    {ctx : FileSystemSandboxPolicyContext} (restricted : policy.kind = .restricted) :
    metadataWriteDenial lib policy path ctx = none ↔ ∀ first protectedPath name,
    (resolvedEntries lib policy ctx).find? (protects lib path) = some first →
    protectedDirectory lib path first.1 = some (protectedPath, name) →
    Reopened lib (resolvedEntries lib policy ctx) path protectedPath := by
  simp only [metadataWriteDenial, restricted, if_true, findSome?_filter]
  have sameSearch : (fun entry : PathUri × FileSystemAccessMode => entry.2.canWrite &&
    (protectedDirectory lib path entry.1).isSome) = protects lib path := rfl
  rw [sameSearch]
  cases scan : (resolvedEntries lib policy ctx).find? (protects lib path) with
  | none => simp
  | some first =>
    have guards := find?_some scan
    rw [protects, Bool.and_eq_true] at guards
    obtain ⟨⟨protectedPath, name⟩, found⟩ := Option.isSome_iff_exists.mp guards.2
    simp only [Option.bind_some, found]
    have anyIff : (resolvedEntries lib policy ctx).any (fun entry =>
        entry.2.canWrite && PathUri.startsWith lib path entry.1 &&
          PathUri.startsWith lib entry.1 protectedPath) = true ↔
        Reopened lib (resolvedEntries lib policy ctx) path protectedPath := by
      simp only [any_eq_true, Bool.and_eq_true, Reopened, and_assoc]
    constructor
    · intro noDenial other otherPath otherName same otherFound
      cases same
      rw [found] at otherFound
      cases otherFound
      split at noDenial
      next reopened =>
        exact anyIff.mp reopened
      · cases noDenial
    · intro reopened
      rw [if_pos (anyIff.mpr (reopened first protectedPath name rfl found))]

variable {lib entries path place} in
theorem protects_iff {entry : PathUri × FileSystemAccessMode} (valid : HasValidRoots lib entries)
    (located : location lib path = some place) (mem : entry ∈ entries) :
    protects lib path entry = true ↔ entry.2 = .write ∧ ∃ above, location lib entry.1 = some above ∧
    ∃ name ∈ protectedMetadataPathNames, place.Within (above.child name) := by
  rw [protects, Bool.and_eq_true, FileSystemAccessMode.canWrite, beq_iff_eq]
  refine and_congr_right fun _ => ?_
  rcases valid entry mem with isFallback | ⟨entryValid, above, entryLoc⟩
  · rw [protectedDirectory_fallback lib path entry.1 isFallback,
      location_of_fallback lib isFallback]
    simp
  · constructor
    · intro found
      obtain ⟨⟨guarded, name⟩, found⟩ := Option.isSome_iff_exists.mp found
      obtain ⟨_, safe, _, isIn⟩ := protectedDirectory_eq_some located entryValid entryLoc found
      exact ⟨above, entryLoc, name, safe, isIn⟩
    · rintro ⟨other, otherLoc, name, safe, isIn⟩
      cases entryLoc.symm.trans otherLoc
      by_contra missing
      exact protectedDirectory_eq_none located entryValid entryLoc
        (by simpa using missing) safe isIn

variable {lib policy} in
/-- No denial exactly if a writable root below the first protecting one contains the path. -/
theorem metadataWriteDenial_eq_none_iff {path : PathUri}
    {ctx : FileSystemSandboxPolicyContext} {place : Location}
    (restricted : policy.kind = .restricted)
    (valid : HasValidRoots lib (resolvedEntries lib policy ctx))
    (located : location lib path = some place) : metadataWriteDenial lib policy path ctx = none ↔
    ∀ first above, (resolvedEntries lib policy ctx).find? (protects lib path) = some first →
    location lib first.1 = some above →
    HasDeeperWriteRoot lib (resolvedEntries lib policy ctx) place above := by
  rw [metadataWriteDenial_eq_none restricted]
  constructor
  · intro reopened first above scan firstLoc
    have guards := find?_some scan
    rw [protects, Bool.and_eq_true] at guards
    obtain ⟨⟨guarded, name⟩, found⟩ := Option.isSome_iff_exists.mp guards.2
    rcases valid first (mem_of_find?_eq_some scan) with isFallback | ⟨firstValid, _⟩
    · rw [location_of_fallback lib isFallback] at firstLoc
      cases firstLoc
    · exact (reopened_iff_of_protectedDirectory _
        located firstValid firstLoc found).mp (reopened first guarded name scan found)
  · intro deeper first guarded name scan found
    rcases valid first (mem_of_find?_eq_some scan) with
      isFallback | ⟨firstValid, above, firstLoc⟩
    · rw [protectedDirectory_fallback lib path first.1 isFallback] at found
      cases found
    · exact (reopened_iff_of_protectedDirectory _
        located firstValid firstLoc found).mpr (deeper first above scan firstLoc)

/-- All protected directories around the path are reopened, by the entries that protect it. -/
theorem allReopened_iff (plain : HasPlainRoots lib entries)
    (located : location lib path = some place) : AllReopened lib entries path ↔
    ∀ entry ∈ entries, ∀ protectedPath name, entry.2.canWrite = true →
    protectedDirectory lib path entry.1 = some (protectedPath, name) →
    Reopened lib entries path protectedPath := by
  constructor
  · intro all entry mem protectedPath name writes found
    obtain ⟨valid, above, entryLoc⟩ := plain entry mem
    obtain ⟨joined, safe, protectedLoc, isIn⟩ :=
      protectedDirectory_eq_some located valid entryLoc found
    exact all entry mem writes name safe protectedPath joined
      ((startsWith_iff located).mpr ⟨_, protectedLoc, isIn⟩)
  · intro all entry mem writes name safe protectedPath joined starts
    obtain ⟨valid, above, entryLoc⟩ := plain entry mem
    obtain ⟨descendant, descends, _, childLoc⟩ :=
      joinDescendant_name (isPlainName_of_protected safe) valid entryLoc
    cases descends.symm.trans joined
    obtain ⟨base, baseLoc, isIn⟩ :=
      (startsWith_iff located).mp starts
    rw [childLoc, Option.some.injEq] at baseLoc
    rw [← baseLoc] at isIn
    rw [Reopened, reopened_iff entries located childLoc isIn]
    cases found : protectedDirectory lib path entry.1 with
    | none =>
      exact absurd isIn (protectedDirectory_eq_none located valid entryLoc found safe)
    | some dir =>
      obtain ⟨otherPath, otherName⟩ := dir
      exact (reopened_iff_of_protectedDirectory entries located valid entryLoc found).mp
        (all entry mem otherPath otherName writes found)

/-- The source denies writing metadata as it should exactly where the first protecting entry
is the one to look at. -/
theorem metadataWriteDenial_iff (path : PathUri)
    (ctx : FileSystemSandboxPolicyContext) (place : Location)
    (restricted : policy.kind = .restricted)
    (plain : HasPlainRoots lib (resolvedEntries lib policy ctx))
    (located : location lib path = some place) : (metadataWriteDenial lib policy path ctx = none ↔
    AllReopened lib (resolvedEntries lib policy ctx) path) ↔
    FirstProtects lib (resolvedEntries lib policy ctx) path := by
  rw [metadataWriteDenial_eq_none restricted, allReopened_iff lib _ path place plain located]
  constructor
  · intro same first scan other otherMem otherPath otherName writes otherFound
    by_contra neither
    rw [not_or] at neither
    obtain ⟨notBelow, closed⟩ := neither
    refine closed (same.mp ?_ other otherMem otherPath otherName writes otherFound)
    -- the first protecting root is above the unopened one, which therefore reopens it
    intro again guarded name searchAgain found
    cases searchAgain.symm.trans scan
    have mem := mem_of_find?_eq_some scan
    obtain ⟨valid, above, firstLoc⟩ := plain first mem
    obtain ⟨otherValid, otherAbove, otherLoc⟩ := plain other otherMem
    rw [reopened_iff_of_protectedDirectory _ located valid firstLoc found]
    obtain ⟨_, _, _, isIn⟩ := protectedDirectory_eq_some located valid firstLoc found
    obtain ⟨_, _, _, otherInside⟩ := protectedDirectory_eq_some
      located otherValid otherLoc otherFound
    have within := isIn.trans (above.child_within name)
    have otherWithin := otherInside.trans (otherAbove.child_within otherName)
    refine ⟨(otherAbove, other.2), mem_rules.mpr ⟨other.1, otherMem, otherLoc⟩,
      beq_iff_eq.mp writes, otherWithin, ?_⟩
    by_contra notDeeper
    exact notBelow ((startsWith_iff firstLoc).mpr
      ⟨otherAbove, otherLoc, otherWithin.of_depth_le within (Nat.not_lt.mp notDeeper)⟩)
  · intro firstProtects
    constructor
    · intro firstReopened other otherMem otherPath otherName writes otherFound
      cases scan : (resolvedEntries lib policy ctx).find? (protects lib path) with
      | none =>
        have notProtecting := find?_eq_none.mp scan other otherMem
        simp [protects, writes, otherFound] at notProtecting
      | some first =>
        rcases firstProtects first scan other otherMem otherPath otherName writes otherFound
          with below | reopened
        · have mem := mem_of_find?_eq_some scan
          obtain ⟨valid, above, firstLoc⟩ := plain first mem
          obtain ⟨otherValid, otherAbove, otherLoc⟩ := plain other otherMem
          have guards := find?_some scan
          rw [protects, Bool.and_eq_true] at guards
          obtain ⟨⟨guarded, name⟩, found⟩ := Option.isSome_iff_exists.mp guards.2
          have deeper := (reopened_iff_of_protectedDirectory _ located valid firstLoc found).mp
            (firstReopened first guarded name scan found)
          obtain ⟨rule, ruleMem, ruleWrites, ruleWithin, ruleDeeper⟩ := deeper
          obtain ⟨base, baseLoc, firstBelow⟩ :=
            (startsWith_iff firstLoc).mp below
          rw [otherLoc, Option.some.injEq] at baseLoc
          rw [← baseLoc] at firstBelow
          exact (reopened_iff_of_protectedDirectory _ located otherValid otherLoc otherFound).mpr
            ⟨rule, ruleMem, ruleWrites, ruleWithin,
            Nat.lt_of_le_of_lt firstBelow.depth_le ruleDeeper⟩
        · exact reopened
    · intro all first guarded name scan found
      have guards := find?_some scan
      rw [protects, Bool.and_eq_true] at guards
      exact all first (mem_of_find?_eq_some scan) guarded name guards.1 found

/-- A path can be written where its access is write and every protected directory around it is
reopened, exactly if that holds without looking at protected directories, or the first entry
that protects the path is the one to look at. -/
theorem canWritePath_iff_reopened (policy : FileSystemSandboxPolicy) (path : PathUri)
    (context : FileSystemSandboxPolicyContext) (restricted : policy.kind = .restricted)
    (plain : HasPlainRoots lib (resolvedEntries lib policy context)) :
    (canWritePath lib policy path context = true ↔
        resolveAccess lib policy path context = .write ∧
          (hasFullDiskWriteAccessWithContext lib policy context = true ∨
            AllReopened lib (resolvedEntries lib policy context) path)) ↔
      resolveAccess lib policy path context ≠ .write ∨
        hasFullDiskWriteAccessWithContext lib policy context = true ∨
        FirstProtects lib (resolvedEntries lib policy context) path := by
  rw [canWritePath, Bool.and_eq_true, Bool.or_eq_true, Option.isNone_iff_eq_none,
    FileSystemAccessMode.canWrite, beq_iff_eq]
  by_cases writes : resolveAccess lib policy path context = .write
  · by_cases fullDisk : hasFullDiskWriteAccessWithContext lib policy context = true
    · simp [writes, fullDisk]
    · have resolvable : isResolvable lib context path = true := by
        by_contra unresolvable
        rw [resolveAccess_of_not_resolvable restricted (by simpa using unresolvable)] at writes
        cases writes
      obtain ⟨place, located⟩ := location_of_resolvable resolvable
      simp only [writes, fullDisk, true_and, ne_eq, not_true_eq_false, false_or, Bool.false_eq_true]
      exact metadataWriteDenial_iff lib policy path context place restricted plain located
  · simp [writes]

/-- Writable roots, one of them the metadata directory of the other. -/
def nestedMetadataPolicy : FileSystemSandboxPolicy where
  kind := .restricted
  globScanMaxDepth := none
  entries :=
    [⟨.path (.file ⟨none, ["w".toList]⟩), .write, none⟩,
      ⟨.path (.file ⟨none, ["w".toList, ".git".toList]⟩), .write, none⟩]

def workspaceContext : FileSystemSandboxPolicyContext where
  cwd := .file ⟨none, ["w".toList]⟩
  workspaceRoots := [.file ⟨none, ["w".toList]⟩]
  userHomeDir := none
  temporaryDirectories := none

theorem nestedMetadataPolicy_plain : HasPlainRoots urlLibrary
    (resolvedEntries urlLibrary nestedMetadataPolicy workspaceContext) := by
  have roots : ∀ entry ∈ resolvedEntries urlLibrary nestedMetadataPolicy workspaceContext,
      entry.1 = .file ⟨none, ["w".toList]⟩ ∨
        entry.1 = .file ⟨none, ["w".toList, ".git".toList]⟩ := by decide
  intro entry mem
  rcases roots entry mem with root | root
  · rw [root]
    exact ⟨by unfold IsValid IsPathUrl; decide, ⟨.posix, none, ["w".toList]⟩,
      by decide⟩
  · rw [root]
    exact ⟨by unfold IsValid IsPathUrl; decide,
      ⟨.posix, none, ["w".toList, ".git".toList]⟩, by decide⟩

/-- A file of the reopened metadata directory itself can be written. -/
theorem reopened_metadata_is_writable :
    canWritePath PercentEncoding.urlLibrary nestedMetadataPolicy
        (.file ⟨none, ["w".toList, ".git".toList, "config".toList]⟩) workspaceContext = true ↔
      resolveAccess PercentEncoding.urlLibrary nestedMetadataPolicy
          (.file ⟨none, ["w".toList, ".git".toList, "config".toList]⟩) workspaceContext =
          .write ∧
        (hasFullDiskWriteAccessWithContext PercentEncoding.urlLibrary nestedMetadataPolicy
            workspaceContext = true ∨
          AllReopened PercentEncoding.urlLibrary
            (resolvedEntries PercentEncoding.urlLibrary nestedMetadataPolicy workspaceContext)
            (.file ⟨none, ["w".toList, ".git".toList, "config".toList]⟩)) := by
  refine (canWritePath_iff_reopened urlLibrary nestedMetadataPolicy _
    workspaceContext rfl nestedMetadataPolicy_plain).mpr (.inr (.inr ?_))
  intro first search other mem protectedPath name _ found
  have firstRoot : some first = some (.file ⟨none, ["w".toList]⟩, .write) :=
    search.symm.trans (by decide)
  cases firstRoot
  have alone : ∀ other ∈ resolvedEntries urlLibrary nestedMetadataPolicy workspaceContext,
      protectedDirectory urlLibrary
        (.file ⟨none, ["w".toList, ".git".toList, "config".toList]⟩) other.1 ≠ none →
      PathUri.startsWith urlLibrary (.file ⟨none, ["w".toList]⟩) other.1 =
        true := by decide
  exact .inl (alone other mem (by rw [found]; exact Option.some_ne_none _))

/-- The metadata directory of the inner root is reopened by no root, but the entry for the outer
root comes first. -/
theorem outer_root_hides_inner_metadata :
    HasPlainRoots PercentEncoding.urlLibrary
        (resolvedEntries PercentEncoding.urlLibrary nestedMetadataPolicy workspaceContext) ∧
      canWritePath PercentEncoding.urlLibrary nestedMetadataPolicy
        (.file ⟨none, ["w".toList, ".git".toList, ".git".toList]⟩) workspaceContext = true ∧
      hasFullDiskWriteAccessWithContext PercentEncoding.urlLibrary nestedMetadataPolicy
        workspaceContext = false ∧
      ¬ AllReopened PercentEncoding.urlLibrary
        (resolvedEntries PercentEncoding.urlLibrary nestedMetadataPolicy workspaceContext)
        (.file ⟨none, ["w".toList, ".git".toList, ".git".toList]⟩) ∧
      canWritePath PercentEncoding.urlLibrary
        { nestedMetadataPolicy with entries := nestedMetadataPolicy.entries.reverse }
        (.file ⟨none, ["w".toList, ".git".toList, ".git".toList]⟩) workspaceContext = false := by
  refine ⟨nestedMetadataPolicy_plain, by decide, by decide, ?_, by decide⟩
  intro all
  obtain ⟨other, mem, writes, contains, reopens⟩ :=
    all (.file ⟨none, ["w".toList, ".git".toList]⟩, .write) (by decide) rfl ".git".toList
      (by decide) (.file ⟨none, ["w".toList, ".git".toList, ".git".toList]⟩) (by decide)
      (by decide)
  have closed : ∀ other ∈ resolvedEntries urlLibrary nestedMetadataPolicy workspaceContext,
      PathUri.startsWith urlLibrary other.1
        (.file ⟨none, ["w".toList, ".git".toList, ".git".toList]⟩) = false := by decide
  rw [closed other mem] at reopens
  cases reopens

end FileSystemSandboxPolicy

end

end CodexFormal.Permissions
