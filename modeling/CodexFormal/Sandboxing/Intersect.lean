import CodexFormal.Permissions.ReadDeny

/-!
# Intersection of permission profiles

What is granted of a request for additional permissions is made of the granted
entries that the request covers, each tested at its own root, and of the denials
of either side that meet one of them.
-/

set_option autoImplicit false

namespace CodexFormal.Sandboxing

open Permissions Uri
open Patch (Text)

structure NetworkPermissions where
  enabled : Option Bool
deriving DecidableEq, Repr

structure FileSystemPermissions where
  entries : List FileSystemSandboxEntry
  globScanMaxDepth : Option Nat
deriving DecidableEq, Repr

structure AdditionalPermissionProfile where
  network : Option NetworkPermissions
  fileSystem : Option FileSystemPermissions
deriving DecidableEq, Repr

inductive GlobScanDepth where
  | bounded (depth : Nat)
  | unbounded
deriving DecidableEq, Repr

def effectiveGlobScanDepth (entries : List FileSystemSandboxEntry) (depth : Option Nat) :
    Option GlobScanDepth :=
  if entries.any fun entry => (FileSystemSandboxPolicy.deniedPattern entry).isSome then
    some (match depth with
      | some depth => .bounded depth
      | none => .unbounded)
  else none

def mergeGlobScanMaxDepth (leftEntries : List FileSystemSandboxEntry) (leftDepth : Option Nat)
    (rightEntries : List FileSystemSandboxEntry) (rightDepth : Option Nat) : Option Nat :=
  match effectiveGlobScanDepth leftEntries leftDepth,
      effectiveGlobScanDepth rightEntries rightDepth with
  | some .unbounded, _ => none
  | _, some .unbounded => none
  | some (.bounded left), some (.bounded right) => some (max left right)
  | some (.bounded depth), none => some depth
  | none, some (.bounded depth) => some depth
  | none, none => none

def accessCovers (requested granted : FileSystemAccessMode) : Bool :=
  match granted with
  | .read => requested.canRead
  | .write => requested.canWrite
  | .deny => false

def isRootEntry (entry : FileSystemSandboxEntry) : Bool := entry.path == .special .root

section

variable (lib : UrlLibrary) (replaced : Bytes → Text) (globs : GlobLibrary)

def samePath : FileSystemPath → FileSystemPath → Bool
  | .path left, .path right => PathUri.eqUri lib left right
  | .globPattern left, .globPattern right => left == right
  | .special left, .special right => left == right
  | _, _ => false

/-- Equality of entries, up to the spelling of path URIs. -/
def sameEntry (left right : FileSystemSandboxEntry) : Bool :=
  samePath lib left.path right.path && left.access == right.access &&
    left.missingPathBehavior == right.missingPathBehavior

/-- An entry is added unless an equal one is there. -/
def pushNew (entries : List FileSystemSandboxEntry) (entry : FileSystemSandboxEntry) :
    List FileSystemSandboxEntry :=
  if entries.any fun present => sameEntry lib present entry then entries else entries ++ [entry]

variable (context : FileSystemSandboxPolicyContext)

/-- The one path of an entry; of several workspace roots, the first counts. -/
def resolvePermissionPath (path : FileSystemPath) : Option PathUri :=
  match path with
  | .path path => some path
  | .globPattern _ => none
  | .special .root => fileSystemRoot lib context
  | .special (.projectRoots subpath) =>
    context.workspaceRoots.head?.bind fun root =>
      match subpath with
      | some subpath => (PathUri.join lib root subpath).toOption
      | none => some root
  | .special .tmpdir => context.temporaryDirectories.bind List.head?
  | .special .slashTmp =>
    if PathUri.inferPathConvention context.cwd = some .posix then
      (PathUri.join lib context.cwd "/tmp".toList).toOption
    else none
  | .special .minimal => none
  | .special (.unknown _ _) => none

def materializedPathEntry (entry : FileSystemSandboxEntry) (path : PathUri) :
    FileSystemSandboxEntry :=
  { entry with path := .path path }

/-- As in a denied pattern, and the home directory itself. -/
def homeRelativeGlob (isWindows : Bool) (pattern : Text) : Option Text :=
  if pattern = ['~'] then some [] else homeRelativePattern isWindows pattern

def materializeCwdDependentEntry (context : FileSystemSandboxPolicyContext)
    (entry : FileSystemSandboxEntry) : Option FileSystemSandboxEntry :=
  match entry.path with
  | .globPattern pattern =>
    let isWindows := PathUri.inferPathConvention context.cwd == some .windows
    let target :=
      match homeRelativeGlob isWindows pattern with
      | some suffix =>
        context.userHomeDir.map fun home => (home, trimStartSeparators isWindows suffix)
      | none => some (context.cwd, pattern)
    target.bind fun (root, pattern) =>
      (PathUri.join lib root pattern).toOption.map fun path =>
        { entry with path := .globPattern (PathUri.inferredNativePathString lib replaced path) }
  | _ => some entry

/-- The entries of the workspace roots; a denial must have a place below each of them. -/
def materializedRoots (context : FileSystemSandboxPolicyContext) (entry : FileSystemSandboxEntry) :
    List PathUri → Option (List FileSystemSandboxEntry)
  | [] => some []
  | root :: rest =>
    match resolvePermissionPath lib { context with workspaceRoots := [root] } entry.path with
    | none => if entry.access = .deny then none else materializedRoots context entry rest
    | some path =>
      (materializedRoots context entry rest).map (materializedPathEntry entry path :: ·)

def materializeContextDependentEntry (context : FileSystemSandboxPolicyContext)
    (entry : FileSystemSandboxEntry) : Option (List FileSystemSandboxEntry) :=
  match entry.path with
  | .special (.projectRoots _) =>
    (materializedRoots lib context entry context.workspaceRoots).bind fun resolved =>
      if entry.access = .deny ∧ resolved = [] then none else some resolved
  | .special .tmpdir =>
    match context.temporaryDirectories with
    | none => if entry.access = .deny then none else some [entry]
    | some temporaryDirectories => some (temporaryDirectories.map (materializedPathEntry entry))
  | .special .root => (resolvePermissionPath lib context entry.path).map fun _ => [entry]
  | _ =>
    match materializeCwdDependentEntry lib replaced context entry with
    | some entry => some [entry]
    | none => if entry.access = .deny then none else some []

def materializeContextDependentEntries (context : FileSystemSandboxPolicyContext) :
    List FileSystemSandboxEntry → Option (List FileSystemSandboxEntry)
  | [] => some []
  | entry :: rest =>
    (materializeContextDependentEntry lib replaced context entry).bind fun first =>
      (materializeContextDependentEntries context rest).map (first ++ ·)

def grantedFileSystemEntryWithinRequest (requested : FileSystemPermissions)
    (requestedPolicy : FileSystemSandboxPolicy)
    (requestedReadDenyMatcher : Option ReadDenyMatcher) (grantedEntry : FileSystemSandboxEntry)
    (context : FileSystemSandboxPolicyContext) : Bool :=
  let convention := PathUri.inferPathConvention context.cwd
  if !grantedEntry.access.canRead ||
      (grantedEntry.path == .special .slashTmp && convention != some .posix) then false
  else if convention == some .windows && isRootEntry grantedEntry &&
      !(requested.entries.any fun requestedEntry =>
        isRootEntry requestedEntry && accessCovers requestedEntry.access grantedEntry.access) then
    false
  else match resolvePermissionPath lib context grantedEntry.path with
    | some path =>
      if PathUri.inferPathConvention path != convention ||
          (requestedReadDenyMatcher.any fun matcher =>
            matcher.isReadDeniedUri lib replaced path context) then false
      else accessCovers (requestedPolicy.resolveAccess lib path context) grantedEntry.access
    | none =>
      requested.entries.any fun requestedEntry =>
        accessCovers requestedEntry.access grantedEntry.access &&
          samePath lib requestedEntry.path grantedEntry.path

def isGlobMetacharacter (c : Char) : Bool := c == '*' || c == '?' || c == '[' || c == ']'

/-- The directory of everything that the pattern can match. -/
def globStaticPrefixPath (pattern : Text) : Option PathUri :=
  let isWindows := PathUri.inferPathConvention context.cwd == some .windows
  let beginning := pattern.takeWhile fun c => !isGlobMetacharacter c
  if pattern.any isGlobMetacharacter && beginning.isEmpty then none
  else
    let wildcardInSegment := pattern.any isGlobMetacharacter &&
      !(beginning.getLast? == some '/' || (isWindows && beginning.getLast? == some '\\'))
    (PathUri.join lib context.cwd beginning).toOption.bind fun path =>
      if wildcardInSegment then PathUri.parent path else some path

def pathsOverlap (left right : PathUri) : Bool := (PathUri.overlaps lib left right).getD true

def denyEntryConstrainsAcceptedGrant (denyEntry : FileSystemSandboxEntry)
    (acceptedEntries : List FileSystemSandboxEntry) (context : FileSystemSandboxPolicyContext) :
    Bool :=
  (acceptedEntries.filter fun entry => entry.access.canRead).any fun entry =>
    isRootEntry entry ||
      match resolvePermissionPath lib context entry.path with
      | none => true
      | some grantPath =>
        match denyEntry.path with
        | .globPattern pattern =>
          match globStaticPrefixPath lib context pattern with
          | none => true
          | some beginning => pathsOverlap lib beginning grantPath
        | _ =>
          match resolvePermissionPath lib context denyEntry.path with
          | none => true
          | some denyPath => pathsOverlap lib denyPath grantPath

def constrainingDenyEntries (sourceEntries acceptedEntries : List FileSystemSandboxEntry)
    (context : FileSystemSandboxPolicyContext) : List FileSystemSandboxEntry :=
  sourceEntries.filter fun entry =>
    entry.access == .deny && denyEntryConstrainsAcceptedGrant lib entry acceptedEntries context

/-- The retained denials and the output with those that are new. -/
def retainConstrainingDenyEntries (sourceEntries acceptedEntries : List FileSystemSandboxEntry)
    (context : FileSystemSandboxPolicyContext) (outputEntries : List FileSystemSandboxEntry) :
    List FileSystemSandboxEntry × List FileSystemSandboxEntry :=
  let retained := constrainingDenyEntries lib sourceEntries acceptedEntries context
  (retained, retained.foldl (pushNew lib) outputEntries)

def intersectFileSystemPermissions (requested granted : FileSystemPermissions)
    (context : FileSystemSandboxPolicyContext) : Option FileSystemPermissions :=
  (materializeContextDependentEntries lib replaced context requested.entries).bind
    fun requestedEntries =>
  (materializeContextDependentEntries lib replaced context granted.entries).map
    fun grantedEntries =>
  let requestedPolicy := FileSystemSandboxPolicy.restrictedTo requestedEntries
  let requestedReadDenyMatcher :=
    ReadDenyMatcher.fromContext lib replaced globs requestedPolicy context
  let acceptedEntries := (grantedEntries.filter fun entry =>
    grantedFileSystemEntryWithinRequest lib replaced requested requestedPolicy
      requestedReadDenyMatcher entry context).foldl (pushNew lib) []
  let afterRequested :=
    retainConstrainingDenyEntries lib requestedEntries acceptedEntries context acceptedEntries
  let afterGranted :=
    retainConstrainingDenyEntries lib grantedEntries acceptedEntries context afterRequested.2
  { entries := afterGranted.2
    globScanMaxDepth :=
      (mergeGlobScanMaxDepth afterRequested.1 requested.globScanMaxDepth afterGranted.1
        granted.globScanMaxDepth).filter (· ≠ 0) }

def intersectPermissionProfilesWithContext (requested granted : AdditionalPermissionProfile)
    (context : FileSystemSandboxPolicyContext) : AdditionalPermissionProfile where
  network :=
    if requested.network = some ⟨some true⟩ ∧ granted.network = some ⟨some true⟩ then
      some ⟨some true⟩
    else none
  fileSystem :=
    (requested.fileSystem.bind fun requestedFileSystem =>
      intersectFileSystemPermissions lib replaced globs requestedFileSystem
        (granted.fileSystem.getD ⟨[], none⟩) context).filter fun fileSystem =>
      !fileSystem.entries.isEmpty

end

end CodexFormal.Sandboxing
