import CodexFormal.Permissions.Metadata
import CodexFormal.Uri.AbsolutePath

/-!
# Policies on the local host

The entries of a policy are read twice on the local host: as path URIs, by the
rules that decide about access, and as absolute paths, which the platform
sandboxes are built from.  The two readings of an entry agree, except for text
that begins with the home directory and for `/tmp` where it is no directory.
-/

set_option autoImplicit false

namespace CodexFormal.Permissions

open Foundation Uri List PathUri AbsolutePathBuf Option
open Patch (Text)

inductive FileNode where
  | file (contents : Text)
  | directory (isEmpty : Bool)
  | other
deriving DecidableEq, Repr

/-- What the source reads from the environment and from the file system. -/
structure LocalHost where
  home : Option AbsolutePathBuf
  tmpdir : Option AbsolutePathBuf
  node : AbsolutePathBuf → Option FileNode
  normalizeEffectiveAbsolutePath : AbsolutePathBuf → AbsolutePathBuf

namespace LocalHost

variable (host : LocalHost) (path : AbsolutePathBuf)

def pathExists : Bool := (host.node path).isSome

def isFile : Bool :=
  match host.node path with
  | some (.file _) => true
  | _ => false

def isDir : Bool :=
  match host.node path with
  | some (.directory _) => true
  | _ => false

/-- Without symbolic links the effective path is the path itself. -/
def HasNoSymlinks : Prop :=
  ∀ path, host.normalizeEffectiveAbsolutePath path = path

/-- Text below the home directory is expanded before it is resolved. -/
def resolvePathAgainstBase (text : Text) (base : AbsolutePathBuf) : AbsolutePathBuf :=
  match host.home, PathConvention.posix.homeRelativeSuffix text with
  | some home, some suffix => AbsolutePathBuf.absolutizeFrom (suffix.dropWhile (· == '/')) home
  | _, _ => AbsolutePathBuf.absolutizeFrom text base

def join (base : AbsolutePathBuf) (text : Text) : AbsolutePathBuf :=
  host.resolvePathAgainstBase text base

def resolveCandidatePath (path : Text) (cwd : AbsolutePathBuf) : AbsolutePathBuf :=
  if path.head? = some '/' then AbsolutePathBuf.absolutizeFrom path AbsolutePathBuf.root
  else host.join cwd path

def slashTmp : AbsolutePathBuf := ⟨["tmp".toList], by decide⟩

end LocalHost

section

variable (lib : UrlLibrary) (host : LocalHost)

def localPolicyContext (cwd : AbsolutePathBuf) : FileSystemSandboxPolicyContext where
  cwd := PathUri.fromAbsPath lib cwd
  workspaceRoots := [PathUri.fromAbsPath lib cwd]
  userHomeDir := host.home.map (PathUri.fromAbsPath lib)
  temporaryDirectories := some ((host.tmpdir.map (PathUri.fromAbsPath lib)).toList)

def resolveFileSystemSpecialPath (value : FileSystemSpecialPath) (cwd : AbsolutePathBuf) :
    Option AbsolutePathBuf :=
  match value with
  | .root => none
  | .minimal => none
  | .unknown _ _ => none
  | .projectRoots (some subpath) => some (host.resolvePathAgainstBase subpath cwd)
  | .projectRoots none => some cwd
  | .tmpdir => host.tmpdir
  | .slashTmp => if host.isDir LocalHost.slashTmp then some LocalHost.slashTmp else none

def resolveFileSystemPath (path : FileSystemPath) (cwd : AbsolutePathBuf) :
    Option AbsolutePathBuf :=
  match path with
  | .path path => PathUri.toAbsPath lib path
  | .globPattern _ => none
  | .special value => resolveFileSystemSpecialPath host value cwd

def resolveEntryPath (path : FileSystemPath) (cwd : AbsolutePathBuf) : Option AbsolutePathBuf :=
  match path with
  | .special .root => some AbsolutePathBuf.root
  | _ => resolveFileSystemPath lib host path cwd

structure ResolvedFileSystemEntry where
  path : AbsolutePathBuf
  access : FileSystemAccessMode
deriving DecidableEq, Repr

namespace FileSystemSandboxPolicy

variable (policy : FileSystemSandboxPolicy)

def resolvedEntriesWithCwd (cwd : AbsolutePathBuf) : List ResolvedFileSystemEntry :=
  policy.entries.filterMap fun entry =>
    (resolveEntryPath lib host entry.path cwd).map fun path => ⟨path, entry.access⟩

def canReadLocalPathWithCwd (path : Text) (cwd : AbsolutePathBuf) : Bool :=
  (resolveAccess lib policy (PathUri.fromAbsPath lib (host.resolveCandidatePath path cwd))
    (localPolicyContext lib host cwd)).canRead

def canWriteLocalPathWithCwd (path : Text) (cwd : AbsolutePathBuf) : Bool :=
  canWritePath lib policy (PathUri.fromAbsPath lib (host.resolveCandidatePath path cwd))
    (localPolicyContext lib host cwd)

def hasFullDiskReadAccess : Bool :=
  hasFullDiskReadAccessForConvention policy (some .posix)

def hasFullDiskWriteAccess : Bool :=
  hasFullDiskWriteAccessForConvention lib policy (some .posix)

end FileSystemSandboxPolicy

namespace LocalHost

@[simp] theorem resolveCandidatePath_toText (path cwd : AbsolutePathBuf) :
    host.resolveCandidatePath path.toText cwd = path := by
  have abs : path.toText.head? = some '/' := rfl
  rw [resolveCandidatePath, if_pos abs, absolutizeFrom_toText]

theorem resolvePathAgainstBase_of_not_home (text : Text) (base : AbsolutePathBuf)
    (notHome : host.home = none ∨ PathConvention.posix.homeRelativeSuffix text = none) :
    host.resolvePathAgainstBase text base = absolutizeFrom text base := by
  unfold resolvePathAgainstBase
  rcases notHome with noHome | noSuffix
  · rw [noHome]
  · rw [noSuffix]
    split
    next impossible =>
      cases impossible
    · rfl

end LocalHost

/-- The local reading of an entry leaves out `/tmp` or expands the home directory. -/
def ResolvesElsewhere (path : FileSystemPath) : Prop :=
  match path with
  | .special .slashTmp => host.isDir LocalHost.slashTmp = false
  | .special (.projectRoots (some subpath)) =>
    host.home ≠ none ∧ PathConvention.posix.homeRelativeSuffix subpath ≠ none
  | _ => False

/-- URIs are made by the URL library, which resolves dots. -/
def IsWellFormedPath : FileSystemPath → Prop
  | .path uri => PathUri.IsValid lib uri ∧ PathUri.HasNoDots lib uri
  | _ => True

instance (path : FileSystemPath) : Decidable (IsWellFormedPath lib path) :=
  match path with
  | .path _ => inferInstanceAs (Decidable (_ ∧ _))
  | .globPattern _ => inferInstanceAs (Decidable True)
  | .special _ => inferInstanceAs (Decidable True)

def HasWellFormedPaths (policy : FileSystemSandboxPolicy) : Prop :=
  ∀ entry ∈ policy.entries, IsWellFormedPath lib entry.path

instance (policy : FileSystemSandboxPolicy) : Decidable (HasWellFormedPaths lib policy) :=
  inferInstanceAs (Decidable (∀ entry ∈ policy.entries, IsWellFormedPath lib entry.path))

variable {lib} in
theorem isFallback_of_location {uri : PathUri} {place : Location}
    (loc : location lib uri = some place) : isFallback uri = false := by
  cases uri with
  | fallback bytes => cases loc
  | file url => rfl

theorem resolvedPaths_denotes (path : FileSystemPath) (cwd : AbsolutePathBuf) (uri : PathUri)
    (place : Location) (plain : isFallback (fromAbsPath lib cwd) = false)
    (wellFormed : IsWellFormedPath lib path)
    (mem : uri ∈ resolvedPaths lib (localPolicyContext lib host cwd) path)
    (loc : location lib uri = some place) (posix : place.convention = .posix) :
    ∃ means, Denotes lib uri means ∧
    (¬ ResolvesElsewhere host path → resolveEntryPath lib host path cwd = some means) := by
  have isFile := isFallback_of_location loc
  have infer := convention_of_location loc
  rw [posix] at infer
  cases path with
  | path own =>
    cases mem_singleton.mp mem
    obtain ⟨valid, noDots⟩ := wellFormed
    obtain ⟨means, found, denotes⟩ :=
      toAbsPath_denotes lib uri place valid noDots loc posix
    exact ⟨means, denotes, fun _ => found⟩
  | globPattern pat => cases mem
  | special value =>
    cases value with
    | root =>
      obtain ⟨_, _, rfl⟩ := map_eq_some_iff.mp (mem_toList.mp mem)
      exact ⟨_, rootAncestor_denotes lib cwd plain, fun _ => rfl⟩
    | projectRoots sub =>
      obtain ⟨base, baseMem, res⟩ := mem_filterMap.mp mem
      cases mem_singleton.mp baseMem
      cases sub with
      | none =>
        cases res
        exact ⟨cwd, fromAbsPath_denotes plain, fun _ => rfl⟩
      | some sub =>
        have joined := toOption_eq_some.mp res
        refine ⟨_, join_denotes lib cwd sub uri plain joined infer isFile,
          fun alike => congrArg some ?_⟩
        refine host.resolvePathAgainstBase_of_not_home sub cwd ?_
        by_contra expands
        rw [not_or] at expands
        exact alike expands
    | tmpdir =>
      obtain ⟨dir, found, rfl⟩ := map_eq_some_iff.mp (mem_toList.mp mem)
      exact ⟨dir, fromAbsPath_denotes isFile, fun _ => found⟩
    | slashTmp =>
      simp only [resolvedPaths] at mem
      split at mem
      · have joined := toOption_eq_some.mp (mem_toList.mp mem)
        refine ⟨LocalHost.slashTmp,
          join_denotes lib cwd "/tmp".toList uri plain joined infer isFile,
          fun alike => if_pos ?_⟩
        simpa [ResolvesElsewhere] using alike
      · cases mem
    | _ => cases mem

/-- The location of the URIs that denote the path. -/
def placeOf (path : AbsolutePathBuf) : Location := ⟨.posix, none, path.names⟩

theorem placeOf_within {path base : AbsolutePathBuf} :
    (placeOf path).Within (placeOf base) ↔ path.startsWith base = true := by
  rw [AbsolutePathBuf.startsWith_iff]
  exact ⟨fun within => within.2.2, fun front => ⟨rfl, rfl, front⟩⟩

namespace FileSystemSandboxPolicy

variable (policy : FileSystemSandboxPolicy) (cwd : AbsolutePathBuf)

def localEntries : List (PathUri × FileSystemAccessMode) :=
  resolvedEntries lib policy (localPolicyContext lib host cwd)

def localRules : List Rule := rules lib (localEntries lib host policy cwd)

/-- Every entry that is no grant and covers the path is read alike. -/
def NarrowsAlike (path : AbsolutePathBuf) : Prop :=
  ∀ entry ∈ policy.entries, entry.access ≠ .write → ResolvesElsewhere host entry.path →
    ∀ uri ∈ resolvedPaths lib (localPolicyContext lib host cwd) entry.path,
      PathUri.startsWith lib (PathUri.fromAbsPath lib path) uri = false

variable (path : AbsolutePathBuf)

variable {lib host cwd path} in
theorem isResolvable_local :
    isResolvable lib (localPolicyContext lib host cwd) (fromAbsPath lib path) = true ↔
    isFallback (fromAbsPath lib cwd) = false ∧ isFallback (fromAbsPath lib path) = false := by
  constructor
  · intro found
    unfold isResolvable at found
    split at found
    · cases found
    · rw [Bool.and_eq_true, Bool.and_eq_true, lexicalDepth_eq, lexicalDepth_eq,
        isSome_map, isSome_map] at found
      obtain ⟨⟨_, pathLoc⟩, cwdLoc⟩ := found
      obtain ⟨_, pathLoc⟩ := isSome_iff_exists.mp pathLoc
      obtain ⟨_, cwdLoc⟩ := isSome_iff_exists.mp cwdLoc
      exact ⟨isFallback_of_location cwdLoc, isFallback_of_location pathLoc⟩
  · rintro ⟨cwdPlain, pathOrdinary⟩
    have cwdLoc := (fromAbsPath_denotes cwdPlain).2
    have pathLoc := (fromAbsPath_denotes pathOrdinary).2
    have cwdPosix := convention_of_location cwdLoc
    have pathPosix := convention_of_location pathLoc
    simp [isResolvable, localPolicyContext, cwdPosix, pathPosix, lexicalDepth_eq, cwdLoc, pathLoc]

variable {lib host policy cwd path} in
theorem governs_of_resolveAccess (restricted : policy.kind = .restricted)
    (given : resolveAccess lib policy (fromAbsPath lib path)
    (localPolicyContext lib host cwd) ≠ .deny) : isFallback (fromAbsPath lib cwd) = false ∧
    isFallback (fromAbsPath lib path) = false ∧
    HasLexicalRoots lib (localEntries lib host policy cwd) ∧
    ∃ rule, Governs (localRules lib host policy cwd) (placeOf path) rule ∧
    rule.2 = resolveAccess lib policy (fromAbsPath lib path) (localPolicyContext lib host cwd) := by
  have found : isResolvable lib (localPolicyContext lib host cwd)
      (fromAbsPath lib path) = true := by
    by_contra unresolvable
    exact given (resolveAccess_of_not_resolvable restricted (by simpa using unresolvable))
  have lex : HasLexicalRoots lib (localEntries lib host policy cwd) := by
    by_contra ambiguous
    exact given (resolveAccess_of_ambiguous _ restricted ambiguous)
  obtain ⟨cwdPlain, pathOrdinary⟩ := isResolvable_local.mp found
  refine ⟨cwdPlain, pathOrdinary, lex, ?_⟩
  rcases givesAccess_resolveAccess policy restricted found
    (fromAbsPath_denotes pathOrdinary).2 lex with governed | ⟨denied, _⟩
  · exact governed
  · exact absurd denied given

variable {lib host policy cwd path} in
theorem resolveAccess_of_governs {rule : Rule} (restricted : policy.kind = .restricted)
    (gov : Governs (localRules lib host policy cwd) (placeOf path) rule)
    (given : resolveAccess lib policy (fromAbsPath lib path)
    (localPolicyContext lib host cwd) ≠ .deny) :
    resolveAccess lib policy (fromAbsPath lib path) (localPolicyContext lib host cwd) = rule.2 := by
  obtain ⟨_, _, _, other, otherGov, mode⟩ :=
    governs_of_resolveAccess restricted given
  rw [gov.unique otherGov, mode]

variable {lib host policy cwd} in
theorem exists_entry_of_localEntry {uri : PathUri} {access : FileSystemAccessMode}
    {place : Location} (plain : isFallback (fromAbsPath lib cwd) = false)
    (wellFormed : HasWellFormedPaths lib policy)
    (mem : (uri, access) ∈ localEntries lib host policy cwd) (loc : location lib uri = some place) :
    ∃ means, Denotes lib uri means ∧ place = placeOf means ∧
    ∃ entry ∈ policy.entries, entry.access = access ∧
    uri ∈ resolvedPaths lib (localPolicyContext lib host cwd) entry.path ∧
    (¬ ResolvesElsewhere host entry.path →
    resolveEntryPath lib host entry.path cwd = some means) := by
  obtain ⟨entry, entryMem, resolved⟩ := mem_flatMap.mp mem
  obtain ⟨isPath, convention, sameAccess⟩ := mem_resolvedEntry.mp resolved
  have cwdPosix := convention_of_location (fromAbsPath_denotes plain).2
  have posix : place.convention = .posix := by
    have same := convention_of_location loc
    have infer : inferPathConvention uri = some .posix := convention.trans cwdPosix
    rw [infer] at same
    exact (some.inj same).symm
  obtain ⟨means, denotes, read⟩ := resolvedPaths_denotes lib host entry.path cwd uri place
    plain (wellFormed entry entryMem) isPath loc posix
  exact ⟨means, denotes, some.inj (loc.symm.trans denotes.2), entry, entryMem,
    sameAccess.symm, isPath, read⟩

theorem hasValidRoots_localEntries (plain : isFallback (fromAbsPath lib cwd) = false)
    (wellFormed : HasWellFormedPaths lib policy)
    (lex : HasLexicalRoots lib (localEntries lib host policy cwd)) :
    HasValidRoots lib (localEntries lib host policy cwd) := by
  intro entry mem
  rcases lex entry mem with isFallback | loc
  · exact .inl isFallback
  · obtain ⟨place, loc⟩ := isSome_iff_exists.mp loc
    obtain ⟨means, denotes, _⟩ := exists_entry_of_localEntry plain wellFormed mem loc
    exact .inr ⟨denotes.1, place, loc⟩

theorem localEntry_of_rule (rule : Rule) (plain : isFallback (fromAbsPath lib cwd) = false)
    (pathOrdinary : isFallback (fromAbsPath lib path) = false)
    (wellFormed : HasWellFormedPaths lib policy) (alike : NarrowsAlike lib host policy cwd path)
    (mem : rule ∈ localRules lib host policy cwd) (covers : (placeOf path).Within rule.1)
    (narrows : rule.2 ≠ .write) : ∃ means, rule.1 = placeOf means ∧
    ⟨means, rule.2⟩ ∈ resolvedEntriesWithCwd lib host policy cwd := by
  obtain ⟨uri, uriMem, loc⟩ := mem_rules.mp mem
  obtain ⟨means, denotes, place, entry, entryMem, mode, isPath, read⟩ :=
    exists_entry_of_localEntry plain wellFormed uriMem loc
  refine ⟨means, place, mem_filterMap.mpr ⟨entry, entryMem, ?_⟩⟩
  have sameReading : ¬ ResolvesElsewhere host entry.path := by
    intro elsewhere
    have isIn : (placeOf path).Within (placeOf means) := place ▸ covers
    have starts := (PathUri.startsWith_iff (fromAbsPath_denotes pathOrdinary).2).mpr
      ⟨_, denotes.2, isIn⟩
    rw [alike entry entryMem (mode ▸ narrows) elsewhere uri isPath] at starts
    cases starts
  rw [read sameReading, map_some, mode]

variable {lib host policy cwd} in
/-- A path that has less access than a path above it is at or below an entry strictly below that
one, and this entry decides about its own path. -/
theorem exists_narrowing_entry {above path : AbsolutePathBuf}
    (restricted : policy.kind = .restricted) (wellFormed : HasWellFormedPaths lib policy)
    (plain : isFallback (fromAbsPath lib path) = false)
    (alike : NarrowsAlike lib host policy cwd path) (below : path.startsWith above = true)
    (given : resolveAccess lib policy (fromAbsPath lib above)
    (localPolicyContext lib host cwd) ≠ .deny)
    (differs : resolveAccess lib policy (fromAbsPath lib path)
    (localPolicyContext lib host cwd) ≠ resolveAccess lib policy (fromAbsPath lib above)
    (localPolicyContext lib host cwd)) (narrows : resolveAccess lib policy (fromAbsPath lib path)
    (localPolicyContext lib host cwd) ≠ .write) :
    ∃ means rule, rule.2 = resolveAccess lib policy (fromAbsPath lib path)
    (localPolicyContext lib host cwd) ∧
    Governs (localRules lib host policy cwd) (placeOf means) rule ∧
    ⟨means, rule.2⟩ ∈ resolvedEntriesWithCwd lib host policy cwd ∧
    path.startsWith means = true ∧ means.startsWith above = true ∧ means ≠ above := by
  obtain ⟨cwdPlain, _, lex, upper, upperGov, upperAccess⟩ :=
    governs_of_resolveAccess restricted given
  have within := placeOf_within.mpr below
  obtain ⟨rule, gov⟩ := exists_governs
    ⟨upper, upperGov.mem, within.trans upperGov.covers⟩
  have mode : rule.2 = resolveAccess lib policy (fromAbsPath lib path)
      (localPolicyContext lib host cwd) :=
    GivesAccess.unique (.inl ⟨rule, gov, rfl⟩) (givesAccess_resolveAccess policy restricted
      (isResolvable_local.mpr ⟨cwdPlain, plain⟩)
      (fromAbsPath_denotes plain).2 lex)
  have deeper : (placeOf above).depth < rule.1.depth := by
    by_contra shallow
    refine differs ?_
    rw [← mode, ← upperAccess, upperGov.eq_of_depth_le gov within (Nat.not_lt.mp shallow)]
  obtain ⟨means, place, entry⟩ := localEntry_of_rule lib host policy cwd path rule cwdPlain
    plain wellFormed alike gov.mem gov.covers (mode ▸ narrows)
  have covers := gov.covers
  have governsOwn := gov.governs_own
  rw [place] at covers governsOwn deeper
  refine ⟨means, rule, mode, governsOwn, entry, placeOf_within.mp covers,
    placeOf_within.mp (Location.Within.of_depth_le within covers (Nat.le_of_lt deeper)), ?_⟩
  rintro rfl
  exact Nat.lt_irrefl _ deeper

end FileSystemSandboxPolicy

end

end CodexFormal.Permissions
