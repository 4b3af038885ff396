import Mathlib.Data.List.Find
import CodexFormal.Permissions.FullDiskAccess
import CodexFormal.Sandboxing.MaterializedEntries

/-!
# A policy with additional permissions

The entries of an additional permission profile are appended to those of the
policy.  As the most specific entry decides and every writable root protects
its own metadata directories, an appended entry can also take access away: a
read entry where the policy gives write access, and a write entry whose metadata
directories the policy lets be written.
-/

set_option autoImplicit false

namespace CodexFormal.Sandboxing

open Foundation Permissions Uri List PathUri
open Permissions.FileSystemSandboxPolicy

section

variable (lib : UrlLibrary) (policy : FileSystemSandboxPolicy)

def mergeFileSystemPolicyWithAdditionalPermissions
    (permissions : FileSystemPermissions) : FileSystemSandboxPolicy :=
  match policy.kind with
  | .restricted =>
    { policy with
      entries := permissions.entries.foldl (pushNew lib) policy.entries
      globScanMaxDepth := mergeGlobScanMaxDepth policy.entries policy.globScanMaxDepth
        permissions.entries permissions.globScanMaxDepth }
  | .unrestricted => policy
  | .externalSandbox => policy

def effectiveFileSystemSandboxPolicy
    (additionalPermissions : Option AdditionalPermissionProfile) : FileSystemSandboxPolicy :=
  match additionalPermissions with
  | none => policy
  | some profile =>
    match profile.fileSystem with
    | none => policy
    | some permissions =>
      if permissions.entries.isEmpty then policy
      else mergeFileSystemPolicyWithAdditionalPermissions lib policy permissions

def addedEntries (profile : AdditionalPermissionProfile) : List FileSystemSandboxEntry :=
  match profile.fileSystem with
  | none => []
  | some permissions => permissions.entries

theorem effective_entries (profile : AdditionalPermissionProfile)
    (restricted : policy.kind = .restricted) :
    (effectiveFileSystemSandboxPolicy lib policy (some profile)).kind = .restricted ∧
    (effectiveFileSystemSandboxPolicy lib policy (some profile)).entries =
    (addedEntries profile).foldl (pushNew lib) policy.entries := by
  unfold effectiveFileSystemSandboxPolicy addedEntries
  dsimp only
  cases profile.fileSystem with
  | none => exact ⟨restricted, rfl⟩
  | some perms =>
    dsimp only
    split
    next empty =>
      rw [isEmpty_iff.mp empty]
      exact ⟨restricted, rfl⟩
    · simp only [mergeFileSystemPolicyWithAdditionalPermissions, restricted]
      exact ⟨trivial, trivial⟩

/-! ## Appended entries -/

def OverPosixPaths (context : FileSystemSandboxPolicyContext)
    (entries : List FileSystemSandboxEntry) : Prop :=
  ∀ entry ∈ entries, ∀ root ∈ resolvedPaths lib context entry.path,
    PathUri.IsValid lib root ∧
      (PathUri.location lib root).map Location.convention = some .posix

instance (context : FileSystemSandboxPolicyContext) (entries : List FileSystemSandboxEntry) :
    Decidable (OverPosixPaths lib context entries) :=
  inferInstanceAs (Decidable (∀ entry ∈ entries, ∀ root ∈ resolvedPaths lib context entry.path,
    PathUri.IsValid lib root ∧
      (PathUri.location lib root).map Location.convention = some .posix))

variable (context : FileSystemSandboxPolicyContext)

theorem eq_of_sameEntry
    (first second : FileSystemSandboxEntry) (posix : OverPosixPaths lib context [first])
    (same : sameEntry lib first second = true) : first = second := by
  obtain ⟨path, mode, behavior⟩ := first
  obtain ⟨otherPath, otherAccess, otherBehavior⟩ := second
  simp only [sameEntry, Bool.and_eq_true, beq_iff_eq] at same
  obtain ⟨⟨samePaths, rfl⟩, rfl⟩ := same
  have samePath : path = otherPath := by
    cases path with
    | path path =>
      cases otherPath with
      | path otherPath =>
        rcases eqUri_cases samePaths with
          rfl | ⟨_, _, _, _, windows, _⟩
        · rfl
        · obtain ⟨_, isPosix⟩ := posix _ (mem_singleton.mpr rfl) path (mem_singleton.mpr rfl)
          obtain ⟨place, loc, isPosix⟩ := Option.map_eq_some_iff.mp isPosix
          rw [convention_of_location loc, isPosix] at windows
          cases windows
      | _ => cases samePaths
    | globPattern pat =>
      cases otherPath with
      | globPattern otherPattern => rw [beq_iff_eq.mp samePaths]
      | _ => cases samePaths
    | special value =>
      cases otherPath with
      | special otherValue => rw [beq_iff_eq.mp samePaths]
      | _ => cases samePaths
  rw [samePath]

theorem pushNew_cases (entries : List FileSystemSandboxEntry) (entry : FileSystemSandboxEntry)
    (posix : OverPosixPaths lib context entries) :
    pushNew lib entries entry = entries ∧ entry ∈ entries ∨
    pushNew lib entries entry = entries ++ [entry] := by
  unfold pushNew
  split
  next known =>
    obtain ⟨here, mem, same⟩ := any_eq_true.mp known
    have isEntry := eq_of_sameEntry lib context here entry
      (fun other otherMem => posix other (mem_singleton.mp otherMem ▸ mem)) same
    exact .inl ⟨rfl, isEntry ▸ mem⟩
  · exact .inr rfl

theorem find?_append_of_subset {α : Type} (found : α → Bool) (start mid rest : List α)
    (subset : ∀ elem ∈ mid, elem ∈ start) :
    (start ++ (mid ++ rest)).find? found = (start ++ rest).find? found := by
  rw [find?_append, find?_append, find?_append]
  cases first : start.find? found with
  | some elem => rfl
  | none =>
    have none : mid.find? found = none := find?_eq_none.mpr fun elem mem =>
      find?_eq_none.mp first elem (subset elem mem)
    rw [none]
    rfl

/-- Known entries are left out, which changes neither the entries there are nor what a search for
the first resolved entry finds. -/
theorem foldl_pushNew_spec (entries start : List FileSystemSandboxEntry)
    (posix : OverPosixPaths lib context (start ++ entries)) :
    (∀ entry, entry ∈ entries.foldl (pushNew lib) start ↔ entry ∈ start ++ entries) ∧
    ∀ found : PathUri × FileSystemAccessMode → Bool,
    ((entries.foldl (pushNew lib) start).flatMap (resolvedEntry lib context)).find? found =
    ((start ++ entries).flatMap (resolvedEntry lib context)).find? found := by
  induction entries generalizing start with
  | nil => simp
  | cons entry rest ih =>
    have startPosix : OverPosixPaths lib context start := fun other mem =>
      posix other (mem_append_left _ mem)
    rw [foldl_cons]
    rcases pushNew_cases lib context start entry startPosix with ⟨kept, known⟩ | appended
    · rw [kept]
      have restPosix : OverPosixPaths lib context (start ++ rest) := fun other mem =>
        posix other (by
          rcases mem_append.mp mem with inStart | inRest
          · exact mem_append_left _ inStart
          · exact mem_append_right _ (mem_cons_of_mem _ inRest))
      obtain ⟨members, searches⟩ := ih start restPosix
      refine ⟨fun other => ?_, fun found => ?_⟩
      · rw [members]
        simp only [mem_append, mem_cons]
        constructor
        · rintro (inStart | inRest)
          · exact .inl inStart
          · exact .inr (.inr inRest)
        · rintro (inStart | rfl | inRest)
          · exact .inl inStart
          · exact .inl known
          · exact .inr inRest
      · rw [searches, flatMap_append, flatMap_append, flatMap_cons, find?_append_of_subset]
        exact fun resolved mem => mem_flatMap.mpr ⟨entry, known, mem⟩
    · have split : start ++ entry :: rest = (start ++ [entry]) ++ rest := by simp
      rw [appended, split]
      rw [split] at posix
      exact ih (start ++ [entry]) posix

/-! ## Writable places -/

def protectsPlace (place : Location) (entry : PathUri × FileSystemAccessMode) : Bool :=
  entry.2.canWrite &&
    match PathUri.location lib entry.1 with
    | some above => protectedMetadataPathNames.any fun name => place.Within (above.child name)
    | none => false

variable (place : Location)

variable {lib place} in
theorem protectsPlace_iff {entry : PathUri × FileSystemAccessMode} :
    protectsPlace lib place entry = true ↔
    entry.2 = .write ∧ ∃ above, location lib entry.1 = some above ∧
    ∃ name ∈ protectedMetadataPathNames, place.Within (above.child name) := by
  rw [protectsPlace, Bool.and_eq_true, FileSystemAccessMode.canWrite, beq_iff_eq]
  refine and_congr_right fun _ => ?_
  cases location lib entry.1 with
  | _ => simp

/-- The protected directories of the first root that protects the place are reopened. -/
def Unprotected (entries : List (PathUri × FileSystemAccessMode)) (place : Location) : Prop :=
  ∀ first above, entries.find? (protectsPlace lib place) = some first →
    PathUri.location lib first.1 = some above → HasDeeperWriteRoot lib entries place above

/-- The entries let the place be written, where full access makes up for protection. -/
structure WritableAt (entries : List (PathUri × FileSystemAccessMode)) (full : Prop)
    (place : Location) : Prop where
  governed : ∃ rule, Governs (rules lib entries) place rule ∧ rule.2 = .write
  unprotected : full ∨ Unprotected lib entries place

theorem resolveAccess_eq_write_iff (path : PathUri)
    (context : FileSystemSandboxPolicyContext) (place : Location)
    (restricted : policy.kind = .restricted) (found : isResolvable lib context path = true)
    (loc : location lib path = some place)
    (lex : HasLexicalRoots lib (resolvedEntries lib policy context)) :
    resolveAccess lib policy path context = .write ↔
    ∃ rule, Governs (rules lib (resolvedEntries lib policy context)) place rule ∧
    rule.2 = .write := by
  have gives :=
    givesAccess_resolveAccess policy restricted found loc lex
  constructor
  · intro writes
    rw [writes] at gives
    rcases gives with governed | ⟨denied, _⟩
    · exact governed
    · cases denied
  · exact fun governed => gives.unique (.inl governed)

variable {lib policy} in
theorem canWritePath_iff_writableAt {path : PathUri}
    {context : FileSystemSandboxPolicyContext} {place : Location}
    (restricted : policy.kind = .restricted) (found : isResolvable lib context path = true)
    (loc : location lib path = some place)
    (plain : HasPlainRoots lib (resolvedEntries lib policy context)) :
    canWritePath lib policy path context = true ↔
    WritableAt lib (resolvedEntries lib policy context)
    (hasFullDiskWriteAccessWithContext lib policy context = true) place := by
  have valid : HasValidRoots lib (resolvedEntries lib policy context) := fun entry mem =>
    Or.inr (plain entry mem)
  have lex : HasLexicalRoots lib (resolvedEntries lib policy context) := fun entry mem =>
    Or.inr (Option.isSome_iff_exists.mpr (plain entry mem).2)
  have sameSearch : (resolvedEntries lib policy context).find? (protects lib path) =
      (resolvedEntries lib policy context).find? (protectsPlace lib place) :=
    find?_congr fun entry mem => by
      rw [Bool.eq_iff_iff, protectsPlace_iff, protects_iff valid loc mem]
  rw [canWritePath, Bool.and_eq_true, Bool.or_eq_true, Option.isNone_iff_eq_none,
    FileSystemAccessMode.canWrite, beq_iff_eq,
    resolveAccess_eq_write_iff lib policy path context place restricted found loc lex,
    metadataWriteDenial_eq_none_iff restricted valid loc,
    sameSearch]
  exact ⟨fun both => ⟨both.1, both.2⟩, fun writable => ⟨writable.1, writable.2⟩⟩

variable {lib}

theorem WritableAt.congr {entries more : List (PathUri × FileSystemAccessMode)} {full : Prop}
    {place : Location} (writable : WritableAt lib entries full place)
    (same : ∀ entry, entry ∈ entries ↔ entry ∈ more)
    (sameSearch : ∀ found, entries.find? found = more.find? found) :
    WritableAt lib more full place := by
  obtain ⟨⟨rule, gov, writes⟩, bare⟩ := writable
  refine ⟨⟨rule, gov.congr (mem_rules_congr lib same), writes⟩, bare.imp id ?_⟩
  intro bare first above scan loc
  rw [← sameSearch] at scan
  obtain ⟨deeper, mem, isWrite⟩ := bare first above scan loc
  exact ⟨deeper, (mem_rules_congr lib same deeper).mp mem, isWrite⟩

/-- A place is writable with a place below it, if no write rule for that one lies at or below it. -/
theorem WritableAt.upper {entries : List (PathUri × FileSystemAccessMode)} {full : Prop}
    {place upper : Location} (writable : WritableAt lib entries full place)
    (below : place.Within upper)
    (shallow : ∀ rule ∈ rules lib entries, rule.2 = .write → place.Within rule.1 →
    rule.1.depth < upper.depth) : WritableAt lib entries full upper := by
  obtain ⟨⟨rule, gov, writes⟩, bare⟩ := writable
  have covers : ∀ rule ∈ rules lib entries, rule.2 = .write → place.Within rule.1 →
    upper.Within rule.1 := fun rule mem writes within =>
    within.of_depth_le below (Nat.le_of_lt (shallow rule mem writes within))
  refine ⟨⟨rule, ⟨gov.mem, covers rule gov.mem writes gov.covers, ?_⟩, writes⟩, bare.imp id ?_⟩
  · exact fun other mem within => gov.greatest other mem (below.trans within)
  · intro bare first above scan loc
    have sameSearch : entries.find? (protectsPlace lib upper) =
        entries.find? (protectsPlace lib place) := by
      refine find?_congr fun entry mem => ?_
      rw [Bool.eq_iff_iff, protectsPlace_iff, protectsPlace_iff]
      refine and_congr_right fun isWrite => exists_congr fun root => and_congr_right fun loc =>
        exists_congr fun name => and_congr_right fun _ => ⟨below.trans, fun within => ?_⟩
      have rootMem : (root, entry.2) ∈ rules lib entries :=
        mem_rules.mpr ⟨entry.1, mem, loc⟩
      have deep := shallow _ rootMem isWrite (within.trans (root.child_within name))
      refine within.of_depth_le below ?_
      rw [root.depth_child]
      exact deep
    rw [sameSearch] at scan
    obtain ⟨deeper, mem, isWrite, within, isDeeper⟩ := bare first above scan loc
    exact ⟨deeper, mem, isWrite, covers deeper mem isWrite within, isDeeper⟩

/-! ## Rules that take access away -/

section Appended

variable {base added : List (PathUri × FileSystemAccessMode)} {full : Prop} {place}

theorem mem_rules_append_left {rule : Rule} (mem : rule ∈ rules lib base) :
    rule ∈ rules lib (base ++ added) := by
  rw [rules_append]
  exact mem_append_left _ mem

/-- Where an appended rule takes write access from a place, it is a read rule for a place that the
base lets be written, and no write rule is for that place. -/
theorem narrowed_by_read (noDeny : ∀ rule ∈ rules lib added, rule.2 ≠ .deny)
    (writable : WritableAt lib base full place) (rule : Rule)
    (gov : Governs (rules lib (base ++ added)) place rule) (notWrite : rule.2 ≠ .write) :
    rule ∈ rules lib added ∧ rule.2 = .read ∧ WritableAt lib base full rule.1 ∧
    (rule.1, .write) ∉ rules lib (base ++ added) := by
  obtain ⟨broad, broadGoverns, broadWrites⟩ := writable.governed
  have isAdded : rule ∈ rules lib added := by
    have mem := gov.mem
    rw [rules_append, mem_append] at mem
    refine mem.resolve_left fun inBase => notWrite ?_
    have same := (gov.of_subset inBase fun other => mem_rules_append_left).unique broadGoverns
    rw [same, broadWrites]
  have isRead : rule.2 = .read := by
    cases mode : rule.2 with
    | read => rfl
    | write => exact absurd mode notWrite
    | deny => exact absurd mode (noDeny rule isAdded)
  have above : ∀ other ∈ rules lib (base ++ added), other.2 = .write → place.Within other.1 →
      other.1.depth < rule.1.depth := by
    intro other mem writes covers
    rcases gov.greatest other mem covers with deeper | ⟨_, atMost⟩
    · exact deeper
    · rw [rank, rank, writes, isRead] at atMost
      exact absurd atMost (by decide)
  refine ⟨isAdded, isRead, writable.upper gov.covers fun other mem =>
    above other (mem_rules_append_left mem), fun atSamePlace => ?_⟩
  exact Nat.lt_irrefl _ (above (rule.1, .write) atSamePlace rfl gov.covers)

/-- Where an appended rule protects a place, the protected directory is one that the base lets be
written, and neither a write rule for it nor an earlier root opens it. -/
theorem narrowed_by_protection (writable : WritableAt lib base full place)
    (safe : ¬ Unprotected lib (base ++ added) place) :
    ∃ pre root after above, base ++ added = pre ++ (root, .write) :: after ∧
    location lib root = some above ∧ (∀ earlier ∈ pre, protectsPlace lib above earlier = false) ∧
    ∃ name ∈ protectedMetadataPathNames, WritableAt lib base full (above.child name) ∧
    (above.child name, .write) ∉ rules lib (base ++ added) := by
  simp only [Unprotected, not_forall] at safe
  obtain ⟨⟨root, mode⟩, above, scan, loc, closed⟩ := safe
  obtain ⟨guards, pre, after, split, notBefore⟩ := find?_eq_some_iff_append.mp scan
  obtain ⟨writes, other, otherLoc, name, isName, isIn⟩ :=
    protectsPlace_iff.mp guards
  cases loc.symm.trans otherLoc
  cases (writes : mode = .write)
  have shallow : ∀ rule ∈ rules lib (base ++ added), rule.2 = .write → place.Within rule.1 →
      rule.1.depth < (above.child name).depth := by
    intro rule mem isWrite covers
    rw [above.depth_child]
    refine Nat.lt_succ_of_le (Nat.not_lt.mp fun deeper => closed ?_)
    exact ⟨rule, mem, isWrite, covers, deeper⟩
  refine ⟨pre, root, after, above, split, loc, fun earlier mem => ?_, name, isName,
    writable.upper isIn fun rule mem => shallow rule (mem_rules_append_left mem),
    fun opened => Nat.lt_irrefl _ (shallow _ opened rfl isIn)⟩
  rw [Bool.eq_false_iff]
  intro protectsRoot
  obtain ⟨isWrite, up, upLocated, upName, isUpName, within⟩ :=
    protectsPlace_iff.mp protectsRoot
  have protectsToo := protectsPlace_iff.mpr ⟨isWrite, up, upLocated, upName,
    isUpName, (isIn.trans (above.child_within name)).trans within⟩
  have missed := notBefore earlier mem
  rw [protectsToo] at missed
  cases missed

theorem write_mem_of_writableAt {entries : List (PathUri × FileSystemAccessMode)} {rule : Rule}
    (mem : rule ∈ rules lib entries) (writable : WritableAt lib entries full rule.1) :
    (rule.1, .write) ∈ rules lib entries := by
  obtain ⟨greatest, gov, writes⟩ := writable.governed
  have asDeep := (gov.greatest rule mem (Location.Within.refl _)).depth_le
  have same : rule.1 = greatest.1 := gov.covers.eq_of_depth_le asDeep
  rw [same, ← writes]
  exact gov.mem

/-- A protected directory that is still writable has a write rule, or its root lies in a protected
directory of an earlier root. -/
theorem opened_of_unprotected {entries pre after : List (PathUri × FileSystemAccessMode)}
    {root : PathUri} {above : Location} {name : Patch.Text}
    (split : entries = pre ++ (root, .write) :: after) (loc : location lib root = some above)
    (isName : name ∈ protectedMetadataPathNames)
    (bare : Unprotected lib entries (above.child name)) :
    (above.child name, .write) ∈ rules lib entries ∨
    ∃ earlier ∈ pre, protectsPlace lib above earlier = true := by
  have guards : protectsPlace lib (above.child name) (root, .write) = true :=
    protectsPlace_iff.mpr ⟨rfl, above, loc, name, isName, Location.Within.refl _⟩
  -- a first root with a deeper root above the directory, at the depth of the given root
  have opened : ∀ first : Location, above.depth ≤ first.depth →
      HasDeeperWriteRoot lib entries (above.child name) first →
      (above.child name, .write) ∈ rules lib entries := by
    rintro first deep ⟨rule, mem, writes, covers, deeper⟩
    have same : above.child name = rule.1 := by
      refine covers.eq_of_depth_le ?_
      rw [above.depth_child]
      omega
    rw [same, ← writes]
    exact mem
  cases early : pre.find? (protectsPlace lib (above.child name)) with
  | none =>
    left
    have scan : entries.find? (protectsPlace lib (above.child name)) = some (root, .write) := by
      rw [split, find?_append, early, find?_cons_of_pos guards]
      rfl
    exact opened above Nat.le.refl (bare _ above scan loc)
  | some first =>
    have scan : entries.find? (protectsPlace lib (above.child name)) = some first := by
      rw [split, find?_append, early]
      rfl
    obtain ⟨isWrite, up, upLocated, upName, isUpName, isIn⟩ :=
      protectsPlace_iff.mp (find?_some early)
    by_cases deep : above.depth ≤ up.depth
    · exact .inl (opened up deep (bare first up scan upLocated))
    · right
      refine ⟨first, mem_of_find?_eq_some early, protectsPlace_iff.mpr
        ⟨isWrite, up, upLocated, upName, isUpName, ?_⟩⟩
      refine isIn.of_depth_le (above.child_within name) ?_
      rw [up.depth_child]
      omega

end Appended

/-! ## What may be added -/

variable (lib)

/-- Some write entry is for the place of the path. -/
def IsWriteRoot (entries : List (PathUri × FileSystemAccessMode)) (path : PathUri) : Prop :=
  ∃ root, (root, FileSystemAccessMode.write) ∈ entries ∧
    PathUri.location lib root = PathUri.location lib path

/-- No added read entry and no metadata directory of a write entry is at a path that the policy
lets be written, unless a write entry is for that path or, for a metadata directory, an earlier
write entry protects its root. -/
structure OnlyWidens (policy : FileSystemSandboxPolicy) (added : List FileSystemSandboxEntry)
    (context : FileSystemSandboxPolicyContext) : Prop where
  reads : ∀ root, (root, .read) ∈ resolvedEntries lib (restrictedTo added) context →
    canWritePath lib policy root context = true →
    IsWriteRoot lib (resolvedEntries lib (restrictedTo (policy.entries ++ added)) context) root
  metadata : ∀ before root after,
    resolvedEntries lib (restrictedTo (policy.entries ++ added)) context =
      before ++ (root, .write) :: after →
    ∀ name ∈ protectedMetadataPathNames, ∀ directory,
      PathUri.joinDescendant lib root name = .ok directory →
      canWritePath lib policy directory context = true →
      IsWriteRoot lib (resolvedEntries lib (restrictedTo (policy.entries ++ added)) context)
          directory ∨
        ∃ earlier ∈ before, protects lib root earlier = true

/-- What the path allowed under the policy it allows under the other one. -/
def KeepsAccess (policy other : FileSystemSandboxPolicy) (context : FileSystemSandboxPolicyContext)
    (path : PathUri) : Prop :=
  ((resolveAccess lib policy path context).canRead = true →
      (resolveAccess lib other path context).canRead = true) ∧
    (canWritePath lib policy path context = true → canWritePath lib other path context = true)

end

/-! ## The effective policy -/

section Effective

variable {lib : UrlLibrary} {policy : FileSystemSandboxPolicy}
  {profile : AdditionalPermissionProfile} {context : FileSystemSandboxPolicyContext}

/-- A restricted policy and an additional profile over plain POSIX paths without denials. -/
structure Widening (lib : UrlLibrary) (policy : FileSystemSandboxPolicy)
    (profile : AdditionalPermissionProfile) (context : FileSystemSandboxPolicyContext) : Prop where
  restricted : policy.kind = .restricted
  posix : OverPosixPaths lib context (policy.entries ++ addedEntries profile)
  noDeny : ∀ entry ∈ addedEntries profile, entry.access ≠ .deny

theorem plainRoots_of_posix {entries : List FileSystemSandboxEntry}
    (posix : OverPosixPaths lib context entries) :
    HasPlainRoots lib (resolvedEntries lib (restrictedTo entries) context) := by
  intro resolved mem
  obtain ⟨entry, isIn, found⟩ := mem_resolvedEntries_restrictedTo.mp mem
  obtain ⟨rootMem, _, _⟩ := mem_resolvedEntry.mp found
  obtain ⟨valid, isPosix⟩ := posix entry isIn resolved.1 rootMem
  obtain ⟨place, loc, _⟩ := Option.map_eq_some_iff.mp isPosix
  exact ⟨valid, place, loc⟩

theorem resolvedEntries_append (added : List FileSystemSandboxEntry) :
    resolvedEntries lib (restrictedTo (policy.entries ++ added)) context =
      resolvedEntries lib policy context ++ resolvedEntries lib (restrictedTo added) context :=
  flatMap_append

/-- The policy with the added entries behind its own. -/
abbrev widened (policy : FileSystemSandboxPolicy) (profile : AdditionalPermissionProfile) :
    FileSystemSandboxPolicy :=
  restrictedTo (policy.entries ++ addedEntries profile)

theorem isWriteRoot_iff {entries : List (PathUri × FileSystemAccessMode)} {path : PathUri}
    {place : Location} (loc : location lib path = some place) :
    IsWriteRoot lib entries path ↔ (place, .write) ∈ rules lib entries := by
  rw [IsWriteRoot, mem_rules, loc]

namespace Widening

variable (widening : Widening lib policy profile context)
include widening

theorem basePlain : HasPlainRoots lib (resolvedEntries lib policy context) :=
  plainRoots_of_posix fun entry mem =>
    widening.posix entry (mem_append_left _ mem)

theorem allPlain : HasPlainRoots lib (resolvedEntries lib (widened policy profile) context) :=
  plainRoots_of_posix widening.posix

theorem mem_effective (entry : FileSystemSandboxEntry) :
    entry ∈ (effectiveFileSystemSandboxPolicy lib policy (some profile)).entries ↔
    entry ∈ policy.entries ++ addedEntries profile := by
  rw [(effective_entries lib policy profile widening.restricted).2]
  exact (foldl_pushNew_spec lib context _ _ widening.posix).1 entry

theorem mem_resolved (resolved : PathUri × FileSystemAccessMode) : resolved ∈ resolvedEntries lib
    (effectiveFileSystemSandboxPolicy lib policy (some profile)) context ↔
    resolved ∈ resolvedEntries lib (widened policy profile) context := by
  simp only [resolvedEntries, restrictedTo, mem_flatMap, widening.mem_effective]

theorem find?_resolved (found : PathUri × FileSystemAccessMode → Bool) : (resolvedEntries lib
    (effectiveFileSystemSandboxPolicy lib policy (some profile)) context).find? found =
    (resolvedEntries lib (widened policy profile) context).find? found := by
  have scan := (foldl_pushNew_spec lib context _ _ widening.posix).2 found
  rw [← (effective_entries lib policy profile widening.restricted).2] at scan
  exact scan

theorem effectivePlain : HasPlainRoots lib (resolvedEntries lib
    (effectiveFileSystemSandboxPolicy lib policy (some profile)) context) :=
  fun resolved mem => widening.allPlain resolved ((widening.mem_resolved resolved).mp mem)

theorem any_effective (found : FileSystemSandboxEntry → Bool) :
    (effectiveFileSystemSandboxPolicy lib policy (some profile)).entries.any found =
    (policy.entries ++ addedEntries profile).any found := by
  rw [Bool.eq_iff_iff, any_eq_true, any_eq_true]
  simp [widening.mem_effective]

theorem fullAccess_effective : hasFullDiskWriteAccessWithContext lib
    (effectiveFileSystemSandboxPolicy lib policy (some profile)) context =
    hasFullDiskWriteAccessWithContext lib (widened policy profile) context := by
  have kind := (effective_entries lib policy profile widening.restricted).1
  have override : ∀ entry convention, hasSameTargetWriteOverride lib
      (effectiveFileSystemSandboxPolicy lib policy (some profile)) entry convention =
      hasSameTargetWriteOverride lib (widened policy profile) entry convention :=
    fun entry convention => widening.any_effective _
  simp [hasFullDiskWriteAccessWithContext, hasFullDiskWriteAccessForConvention, kind,
    hasRootAccess, hasWriteNarrowingEntries, override, widening.any_effective, restrictedTo]

variable (path : PathUri)

theorem canWritePath_effective_iff (place : Location)
    (resolves : isResolvable lib context path = true) (loc : location lib path = some place) :
    canWritePath lib (effectiveFileSystemSandboxPolicy lib policy (some profile)) path context =
    true ↔ WritableAt lib (resolvedEntries lib (widened policy profile) context)
    (hasFullDiskWriteAccessWithContext lib (widened policy profile) context = true) place := by
  rw [canWritePath_iff_writableAt
    (effective_entries lib policy profile widening.restricted).1 resolves loc
    widening.effectivePlain, widening.fullAccess_effective]
  constructor
  · exact fun writable => writable.congr widening.mem_resolved widening.find?_resolved
  · exact fun writable => writable.congr (fun entry => (widening.mem_resolved entry).symm)
      fun found => (widening.find?_resolved found).symm

theorem noDenyRules : ∀ rule ∈ rules lib
    (resolvedEntries lib (restrictedTo (addedEntries profile)) context), rule.2 ≠ .deny := by
  intro rule mem
  obtain ⟨root, resolved, _⟩ := mem_rules.mp mem
  obtain ⟨entry, isIn, found⟩ := mem_resolvedEntries_restrictedTo.mp resolved
  obtain ⟨_, _, mode⟩ := mem_resolvedEntry.mp found
  dsimp only at mode
  rw [mode]
  exact widening.noDeny entry isIn

theorem keepsRead (readable : (resolveAccess lib policy path context).canRead = true) :
    (resolveAccess lib (effectiveFileSystemSandboxPolicy lib policy (some profile)) path
    context).canRead = true := by
  have notDenied : resolveAccess lib policy path context ≠ .deny := bne_iff_ne.mp readable
  by_cases found : isResolvable lib context path = true
  · obtain ⟨place, loc⟩ := location_of_resolvable found
    have lex : ∀ entries : List (PathUri × FileSystemAccessMode), HasPlainRoots lib entries →
      HasLexicalRoots lib entries := fun entries plain entry mem =>
      Or.inr (Option.isSome_iff_exists.mpr (plain entry mem).2)
    have gives := givesAccess_resolveAccess policy widening.restricted
      found loc (lex _ widening.basePlain)
    have givesEffective := givesAccess_resolveAccess _
      (effective_entries lib policy profile widening.restricted).1 found loc
      (lex _ widening.effectivePlain)
    obtain ⟨broad, gov, mode⟩ := gives.resolve_right fun bare =>
      notDenied bare.1
    have members : ∀ rule, rule ∈ rules lib (resolvedEntries lib
        (effectiveFileSystemSandboxPolicy lib policy (some profile)) context) ↔
        rule ∈ rules lib (resolvedEntries lib policy context) ∨ rule ∈ rules lib
          (resolvedEntries lib (restrictedTo (addedEntries profile)) context) := by
      intro rule
      rw [mem_rules_congr lib widening.mem_resolved, resolvedEntries_append, rules_append,
        mem_append]
    rw [FileSystemAccessMode.canRead, bne_iff_ne]
    rcases givesEffective with ⟨rule, governsEffective, effectiveAccess⟩ | ⟨_, bare⟩
    · rw [← effectiveAccess]
      rcases (members rule).mp governsEffective.mem with inBase | isAdded
      · have same := (governsEffective.of_subset inBase fun other mem =>
          (members other).mpr (.inl mem)).unique gov
        rw [same, mode]
        exact notDenied
      · exact widening.noDenyRules rule isAdded
    · exact absurd gov.covers (bare broad ((members broad).mpr (.inl gov.mem)))
  · rw [resolveAccess_of_not_resolvable widening.restricted (by simpa using found)] at notDenied
    exact absurd rfl notDenied

theorem resolvable_of_canWritePath (writable : canWritePath lib policy path context = true) :
    isResolvable lib context path = true := by
  by_contra unresolvable
  rw [canWritePath, resolveAccess_of_not_resolvable widening.restricted
    (by simpa using unresolvable)] at writable
  cases writable

theorem posix_of_writableAt {full : Prop} {place : Location}
    (writable : WritableAt lib (resolvedEntries lib policy context) full place) :
    place.convention = .posix := by
  obtain ⟨rule, gov, _⟩ := writable.governed
  obtain ⟨root, resolved, loc⟩ := mem_rules.mp gov.mem
  obtain ⟨entry, isIn, found⟩ := mem_flatMap.mp resolved
  obtain ⟨rootMem, _, _⟩ := mem_resolvedEntry.mp found
  obtain ⟨_, isPosix⟩ := widening.posix entry (mem_append_left _ isIn) root rootMem
  obtain ⟨above, aboveLoc, isPosix⟩ := Option.map_eq_some_iff.mp isPosix
  cases loc.symm.trans aboveLoc
  rw [← gov.covers.1]
  exact isPosix

theorem keepsWrite_of_fullAccess
    (full : hasFullDiskWriteAccessWithContext lib (widened policy profile) context = true)
    (path : PathUri) (writable : canWritePath lib policy path context = true) :
    canWritePath lib (effectiveFileSystemSandboxPolicy lib policy (some profile)) path context =
    true := by
  have found := widening.resolvable_of_canWritePath path writable
  obtain ⟨place, loc⟩ := location_of_resolvable found
  have writableAt := (canWritePath_iff_writableAt widening.restricted
    found loc widening.basePlain).mp writable
  have posix := widening.posix_of_writableAt writableAt
  obtain ⟨cwdPlace, on⟩ := onFileSystem_of_posix lib context path place found loc posix
  obtain ⟨rule, gov, writes⟩ := writableAt.governed
  rw [widening.canWritePath_effective_iff path place found loc]
  refine ⟨?_, .inl full⟩
  have covered : ∃ rule ∈ rules lib (resolvedEntries lib (widened policy profile) context),
      place.Within rule.1 := by
    rw [resolvedEntries_append]
    exact ⟨rule, mem_rules_append_left gov.mem, gov.covers⟩
  obtain ⟨most, governsAll⟩ := exists_governs covered
  refine ⟨most, governsAll, on.write_of_fullAccess rfl ?_ _ (.inl ⟨_, governsAll, rfl⟩)⟩
  rw [hasFullDiskWriteAccessWithContext, on.cwdConvention] at full
  exact full

theorem keepsWrite (onlyWidens : OnlyWidens lib policy (addedEntries profile) context)
    (path : PathUri) (writable : canWritePath lib policy path context = true) :
    canWritePath lib (effectiveFileSystemSandboxPolicy lib policy (some profile)) path context =
    true := by
  have resolves := widening.resolvable_of_canWritePath path writable
  obtain ⟨place, loc⟩ := location_of_resolvable resolves
  have writableAt := (canWritePath_iff_writableAt widening.restricted
    resolves loc widening.basePlain).mp writable
  have canWriteAt : ∀ (other : PathUri) (otherPlace : Location),
      location lib other = some otherPlace →
      WritableAt lib (resolvedEntries lib policy context)
        (hasFullDiskWriteAccessWithContext lib policy context = true) otherPlace →
      canWritePath lib policy other context = true := by
    intro other otherPlace otherLoc otherWritable
    have otherResolvable := isResolvable_of_posix lib context path other place otherPlace
      resolves loc otherLoc (widening.posix_of_writableAt writableAt)
      (widening.posix_of_writableAt otherWritable)
    exact (canWritePath_iff_writableAt widening.restricted
      otherResolvable otherLoc widening.basePlain).mpr otherWritable
  rw [widening.canWritePath_effective_iff path place resolves loc]
  refine ⟨?_, .inr ?_⟩
  · obtain ⟨broad, gov, _⟩ := writableAt.governed
    obtain ⟨rule, governsAll⟩ := @exists_governs _ _ _ _
      (rules lib (resolvedEntries lib (widened policy profile) context)) place (by
      rw [resolvedEntries_append]
      exact ⟨broad, mem_rules_append_left gov.mem, gov.covers⟩)
    refine ⟨rule, governsAll, ?_⟩
    by_contra notWrite
    rw [resolvedEntries_append] at governsAll
    obtain ⟨isAdded, isRead, ruleWritable, gone⟩ :=
      narrowed_by_read widening.noDenyRules writableAt rule governsAll notWrite
    obtain ⟨root, mem, rootLoc⟩ := mem_rules.mp isAdded
    rw [isRead] at mem
    rw [← resolvedEntries_append] at gone
    exact gone ((isWriteRoot_iff rootLoc).mp
      (onlyWidens.reads root mem (canWriteAt root rule.1 rootLoc ruleWritable)))
  · by_contra safe
    rw [resolvedEntries_append] at safe
    obtain ⟨pre, root, after, above, split, rootLoc, notBefore, name, isName,
      directoryWritable, gone⟩ := narrowed_by_protection writableAt safe
    rw [← resolvedEntries_append] at split gone
    have inAll : ∀ entry ∈ pre ++ (root, .write) :: after, IsValid lib entry.1 ∧
        ∃ place, location lib entry.1 = some place := by
      rw [← split]
      exact widening.allPlain
    have rootValid := (inAll (root, .write) (by simp)).1
    obtain ⟨dir, joined, _, dirLoc⟩ :=
      joinDescendant_name (isPlainName_of_protected isName) rootValid rootLoc
    rcases onlyWidens.metadata pre root after split name isName dir joined
      (canWriteAt dir _ dirLoc directoryWritable) with
      opened | ⟨earlier, mem, protectsRoot⟩
    · exact gone ((isWriteRoot_iff dirLoc).mp opened)
    · have found := (protects_iff
        (fun entry entryMem => .inr (inAll entry (mem_append_left _ entryMem)))
        rootLoc mem).mp protectsRoot
      have missed := notBefore earlier mem
      rw [protectsPlace_iff.mpr found] at missed
      cases missed

theorem onlyWidens_of_keepsWrite
    (notFull : ¬ hasFullDiskWriteAccessWithContext lib (widened policy profile) context = true)
    (keeps : ∀ path, canWritePath lib policy path context = true →
    canWritePath lib (effectiveFileSystemSandboxPolicy lib policy (some profile)) path context =
    true) : OnlyWidens lib policy (addedEntries profile) context := by
  have stillWritable : ∀ (path : PathUri) (place : Location),
      location lib path = some place → canWritePath lib policy path context = true →
      WritableAt lib (resolvedEntries lib (widened policy profile) context)
        (hasFullDiskWriteAccessWithContext lib (widened policy profile) context = true) place :=
    fun path place loc writable => (widening.canWritePath_effective_iff path place
      (widening.resolvable_of_canWritePath path writable) loc).mp (keeps path writable)
  refine ⟨fun root mem writable => ?_, fun pre root after split name isName dir joined
    writable => ?_⟩
  · have inAll : (root, .read) ∈ resolvedEntries lib (widened policy profile) context := by
      rw [resolvedEntries_append]
      exact mem_append_right _ mem
    obtain ⟨place, loc⟩ := (widening.allPlain _ inAll).2
    have isRule : (place, .read) ∈
        rules lib (resolvedEntries lib (widened policy profile) context) :=
      mem_rules.mpr ⟨root, inAll, loc⟩
    exact (isWriteRoot_iff loc).mpr
      (write_mem_of_writableAt isRule (stillWritable root place loc writable))
  · have inAll : ∀ entry ∈ pre ++ (root, .write) :: after, IsValid lib entry.1 ∧
        ∃ place, location lib entry.1 = some place := by
      rw [← split]
      exact widening.allPlain
    obtain ⟨rootValid, above, rootLoc⟩ := inAll (root, .write) (by simp)
    obtain ⟨found, alsoJoined, _, dirLoc⟩ :=
      joinDescendant_name (isPlainName_of_protected isName) rootValid rootLoc
    cases alsoJoined.symm.trans joined
    have unprotected := (stillWritable dir _ dirLoc writable).unprotected
    rcases opened_of_unprotected split rootLoc isName (unprotected.resolve_left notFull) with
      opened | ⟨earlier, mem, protectsRoot⟩
    · exact .inl ((isWriteRoot_iff dirLoc).mpr opened)
    · refine .inr ⟨earlier, mem, ?_⟩
      exact (protects_iff
        (fun entry entryMem => .inr (inAll entry (mem_append_left _ entryMem)))
        rootLoc mem).mpr (protectsPlace_iff.mp protectsRoot)

end Widening

/-- Additional permissions take nothing away exactly if with them the whole disk can be written,
or they only widen entry by entry. -/
theorem effectivePolicy_keepsAccess_iff (lib : UrlLibrary) (policy : FileSystemSandboxPolicy)
    (profile : AdditionalPermissionProfile) (context : FileSystemSandboxPolicyContext)
    (restricted : policy.kind = .restricted)
    (basePosix : OverPosixPaths lib context policy.entries)
    (addedPosix : OverPosixPaths lib context (addedEntries profile))
    (noDeny : ∀ entry ∈ addedEntries profile, entry.access = .read ∨ entry.access = .write) :
    (∀ path, KeepsAccess lib policy
        (effectiveFileSystemSandboxPolicy lib policy (some profile)) context path) ↔
      hasFullDiskWriteAccessWithContext lib
          (restrictedTo (policy.entries ++ addedEntries profile)) context = true ∨
        OnlyWidens lib policy (addedEntries profile) context := by
  have widening : Widening lib policy profile context := by
    refine ⟨restricted, fun entry mem => ?_, fun entry mem denied => ?_⟩
    · rcases mem_append.mp mem with inBase | isAdded
      · exact basePosix entry inBase
      · exact addedPosix entry isAdded
    · rcases noDeny entry mem with access | access
      · cases access.symm.trans denied
      · cases access.symm.trans denied
  constructor
  · intro keeps
    by_cases full : hasFullDiskWriteAccessWithContext lib
      (restrictedTo (policy.entries ++ addedEntries profile)) context = true
    · exact .inl full
    · exact .inr (widening.onlyWidens_of_keepsWrite full fun path => (keeps path).2)
  · rintro (full | onlyWidens) path
    · exact ⟨widening.keepsRead path, widening.keepsWrite_of_fullAccess full path⟩
    · exact ⟨widening.keepsRead path, widening.keepsWrite onlyWidens path⟩

end Effective

/-! ## A workspace with additional permissions -/

open Uri.PercentEncoding (urlLibrary)

def posixEntry (names : List String) (access : FileSystemAccessMode) : FileSystemSandboxEntry :=
  ⟨.path (.file ⟨none, names.map String.toList⟩), access, none⟩

def workspaceWrite : FileSystemSandboxPolicy := restrictedTo [posixEntry ["w"] .write]

def adding (names : List String) (access : FileSystemAccessMode) : AdditionalPermissionProfile :=
  ⟨none, some ⟨[posixEntry names access], none⟩⟩

/-- Another directory can be added. -/
theorem dataDirectory_keepsAccess : KeepsAccess urlLibrary workspaceWrite
    (effectiveFileSystemSandboxPolicy urlLibrary workspaceWrite (some (adding ["data"] .write)))
    workspaceContext (.file ⟨none, ["w".toList, "sub".toList, ".git".toList]⟩) := by
  refine (effectivePolicy_keepsAccess_iff urlLibrary workspaceWrite (adding ["data"] .write)
    workspaceContext rfl (by decide) (by decide) (by decide)).mpr (.inr ⟨?_, ?_⟩) _
  · intro root mem
    have writes : ∀ entry ∈ resolvedEntries urlLibrary
        (restrictedTo (addedEntries (adding ["data"] .write))) workspaceContext,
        entry.2 = .write := by decide
    cases writes _ mem
  · intro before root after split name isName directory joined writable
    have closed : ∀ entry ∈ resolvedEntries urlLibrary (restrictedTo
        (workspaceWrite.entries ++ addedEntries (adding ["data"] .write))) workspaceContext,
        ∀ name ∈ protectedMetadataPathNames,
        ((joinDescendant urlLibrary entry.1 name).toOption.all fun directory =>
          !canWritePath urlLibrary workspaceWrite directory workspaceContext) = true := by decide
    have mem : (root, .write) ∈ resolvedEntries urlLibrary (restrictedTo
        (workspaceWrite.entries ++ addedEntries (adding ["data"] .write))) workspaceContext := by
      rw [split]
      simp
    have notWritable := closed _ mem name isName
    simp [joined, Except.toOption, writable] at notWritable

/-- A directory of the workspace that is added for reading cannot be written any more, nor can the
metadata of one that is added for writing. -/
theorem added_permissions_narrow :
    (∀ access, OverPosixPaths urlLibrary workspaceContext (workspaceWrite.entries ++
        addedEntries (adding ["w", "sub"] access))) ∧
      ¬ KeepsAccess urlLibrary workspaceWrite (effectiveFileSystemSandboxPolicy urlLibrary
        workspaceWrite (some (adding ["w", "sub"] .read))) workspaceContext
        (.file ⟨none, ["w".toList, "sub".toList, "a".toList]⟩) ∧
      ¬ KeepsAccess urlLibrary workspaceWrite (effectiveFileSystemSandboxPolicy urlLibrary
        workspaceWrite (some (adding ["w", "sub"] .write))) workspaceContext
        (.file ⟨none, ["w".toList, "sub".toList, ".git".toList]⟩) := by
  refine ⟨fun access => by cases access <;> decide, ?_, ?_⟩
  · unfold KeepsAccess
    decide
  · unfold KeepsAccess
    decide

end CodexFormal.Sandboxing
