import CodexFormal.Foundation.Precedence
import CodexFormal.Uri.Join

/-!
# Filesystem sandbox policies

A policy is a list of entries for paths, special paths and glob patterns.  In a
context its entries resolve to path URIs, and the most specific resolved entry
at or above a path decides about it: the deepest one, and of the deepest ones
the one that comes last in the order read, write, deny.
-/

set_option autoImplicit false

namespace CodexFormal.Permissions

open Foundation Uri
open Patch (Text)

inductive FileSystemAccessMode where
  | read
  | write
  | deny
deriving DecidableEq, Repr

namespace FileSystemAccessMode

/-- The order in which entries of equal depth take precedence. -/
def precedence : FileSystemAccessMode → Nat
  | read => 0
  | write => 1
  | deny => 2

theorem precedence_injective : Function.Injective precedence := by
  intro first second same
  cases first <;> cases second <;> first | rfl | cases same

instance : LinearOrder FileSystemAccessMode := LinearOrder.lift' precedence precedence_injective

/-- The order of the modes as capabilities. -/
def breadth : FileSystemAccessMode → Nat
  | deny => 0
  | read => 1
  | write => 2

def canRead (access : FileSystemAccessMode) : Bool := access != deny

def canWrite (access : FileSystemAccessMode) : Bool := access == write

end FileSystemAccessMode

inductive FileSystemSpecialPath where
  | root
  | minimal
  | projectRoots (subpath : Option Text)
  | tmpdir
  | slashTmp
  | unknown (path : Text) (subpath : Option Text)
deriving DecidableEq, Repr

inductive FileSystemPath where
  | path (path : PathUri)
  | globPattern (pattern : Text)
  | special (value : FileSystemSpecialPath)
deriving DecidableEq, Repr

inductive MissingPathBehavior where
  | skip
deriving DecidableEq, Repr

structure FileSystemSandboxEntry where
  path : FileSystemPath
  access : FileSystemAccessMode
  missingPathBehavior : Option MissingPathBehavior
deriving DecidableEq, Repr

inductive FileSystemSandboxKind where
  | restricted
  | unrestricted
  | externalSandbox
deriving DecidableEq, Repr

structure FileSystemSandboxPolicy where
  kind : FileSystemSandboxKind
  globScanMaxDepth : Option Nat
  entries : List FileSystemSandboxEntry
deriving DecidableEq, Repr

/-- The paths of an executor that the entries of a policy are interpreted with. -/
structure FileSystemSandboxPolicyContext where
  cwd : PathUri
  workspaceRoots : List PathUri
  userHomeDir : Option PathUri
  temporaryDirectories : Option (List PathUri)
deriving DecidableEq, Repr

def protectedMetadataPathNames : List Text :=
  [".git".toList, ".agents".toList, ".codex".toList]

section

variable (lib : UrlLibrary)

def specialPathsShareTarget (left right : FileSystemSpecialPath) : Bool := left == right

def specialPathMatchesPathUri (value : FileSystemSpecialPath) (path : PathUri) : Bool :=
  match value with
  | .root => (PathUri.lexicalDepth lib path).isSome && (PathUri.parent path).isNone
  | .slashTmp =>
    PathUri.inferPathConvention path == some .posix && PathUri.lexicalDepth lib path == some 1 &&
      PathUri.basename lib path == some "tmp".toList
  | _ => false

def fileSystemPathsShareTarget (left right : FileSystemPath) (convention : PathConvention) : Bool :=
  match left, right with
  | .path left, .path right => PathUri.eqUri lib left right
  | .special left, .special right => specialPathsShareTarget left right
  | .path path, .special value =>
    PathUri.inferPathConvention path == some convention &&
      specialPathMatchesPathUri lib value path
  | .special value, .path path =>
    PathUri.inferPathConvention path == some convention &&
      specialPathMatchesPathUri lib value path
  | .globPattern left, .globPattern right => left == right
  | _, _ => false

namespace FileSystemSandboxPolicy

variable (policy : FileSystemSandboxPolicy)

def hasRootAccess (predicate : FileSystemAccessMode → Bool) : Bool :=
  policy.kind == .restricted &&
    policy.entries.any fun entry => entry.path == .special .root && predicate entry.access

def hasDeniedReadRestrictionsForConvention (convention : Option PathConvention) : Bool :=
  policy.kind == .restricted &&
    policy.entries.any fun entry =>
      entry.access == .deny &&
        !(entry.path == .special .slashTmp && convention == some .windows)

def hasSameTargetWriteOverride (entry : FileSystemSandboxEntry)
    (convention : PathConvention) : Bool :=
  policy.entries.any fun candidate =>
    candidate.access.canWrite && decide (entry.access < candidate.access) &&
      fileSystemPathsShareTarget lib candidate.path entry.path convention

/-- An entry that really reduces a broader write grant for the root. -/
def hasWriteNarrowingEntries (convention : PathConvention) : Bool :=
  policy.kind == .restricted &&
    policy.entries.any fun entry =>
      !entry.access.canWrite &&
        match entry.path with
        | .path _ => !hasSameTargetWriteOverride lib policy entry convention
        | .globPattern _ => true
        | .special .root => entry.access == .deny
        | .special .slashTmp =>
          convention != .windows && !hasSameTargetWriteOverride lib policy entry convention
        | .special .minimal => false
        | .special (.unknown _ _) => false
        | .special _ => !hasSameTargetWriteOverride lib policy entry convention

def hasFullDiskReadAccessForConvention (policy : FileSystemSandboxPolicy)
    (convention : Option PathConvention) : Bool :=
  match policy.kind with
  | .unrestricted => true
  | .externalSandbox => true
  | .restricted =>
    hasRootAccess policy FileSystemAccessMode.canRead &&
      !hasDeniedReadRestrictionsForConvention policy convention

def hasFullDiskWriteAccessForConvention (policy : FileSystemSandboxPolicy)
    (convention : Option PathConvention) : Bool :=
  match policy.kind with
  | .unrestricted => true
  | .externalSandbox => true
  | .restricted =>
    match convention with
    | some convention =>
      hasRootAccess policy FileSystemAccessMode.canWrite &&
        !hasWriteNarrowingEntries lib policy convention
    | none => false

def hasFullDiskWriteAccessWithContext (context : FileSystemSandboxPolicyContext) : Bool :=
  hasFullDiskWriteAccessForConvention lib policy (PathUri.inferPathConvention context.cwd)

end FileSystemSandboxPolicy

variable (context : FileSystemSandboxPolicyContext)

def fileSystemRoot : Option PathUri :=
  (PathUri.lexicalDepth lib context.cwd).map fun _ => PathUri.rootAncestor context.cwd

def resolvedPaths (path : FileSystemPath) : List PathUri :=
  match path with
  | .path path => [path]
  | .globPattern _ => []
  | .special .root => (fileSystemRoot lib context).toList
  | .special (.projectRoots subpath) =>
    context.workspaceRoots.filterMap fun root =>
      match subpath with
      | some subpath => (PathUri.join lib root subpath).toOption
      | none => some root
  | .special .tmpdir => context.temporaryDirectories.getD []
  | .special .slashTmp =>
    if PathUri.inferPathConvention context.cwd = some .posix then
      (PathUri.join lib context.cwd "/tmp".toList).toOption.toList
    else []
  | .special .minimal => []
  | .special (.unknown _ _) => []

/-- The paths of an entry that belong to the convention of the context. -/
def resolvedEntry (entry : FileSystemSandboxEntry) : List (PathUri × FileSystemAccessMode) :=
  ((resolvedPaths lib context entry.path).filter fun path =>
    PathUri.inferPathConvention path == PathUri.inferPathConvention context.cwd).map
    fun path => (path, entry.access)

/-- The roots with the number of their segments; an ambiguous root makes all of them unusable. -/
def lexicalEntries : List (PathUri × FileSystemAccessMode) →
    Option (List (PathUri × FileSystemAccessMode × Nat))
  | [] => some []
  | (root, access) :: rest =>
    match PathUri.lexicalDepth lib root with
    | some depth => (lexicalEntries rest).map ((root, access, depth) :: ·)
    | none => if PathUri.isFallback root then lexicalEntries rest else none

namespace FileSystemSandboxPolicy

variable (policy : FileSystemSandboxPolicy) (context : FileSystemSandboxPolicyContext)

def resolvedEntries : List (PathUri × FileSystemAccessMode) :=
  policy.entries.flatMap (resolvedEntry lib context)

/-- A path and a working directory of the same convention with unambiguous components. -/
def isResolvable (context : FileSystemSandboxPolicyContext) (path : PathUri) : Bool :=
  match PathUri.inferPathConvention context.cwd with
  | none => false
  | some convention =>
    PathUri.inferPathConvention path == some convention &&
      (PathUri.lexicalDepth lib path).isSome && (PathUri.lexicalDepth lib context.cwd).isSome

def resolveAccess (policy : FileSystemSandboxPolicy) (path : PathUri)
    (context : FileSystemSandboxPolicyContext) : FileSystemAccessMode :=
  match policy.kind with
  | .unrestricted => .write
  | .externalSandbox => .write
  | .restricted =>
    if isResolvable lib context path then
      match lexicalEntries lib (resolvedEntries lib policy context) with
      | none => .deny
      | some entries =>
        match lastMaximum (fun (_, access, depth) => (depth, access))
            (entries.filter fun entry => PathUri.startsWith lib path entry.1) with
        | some (_, access, _) => access
        | none => .deny
    else .deny

def protectedDirectory (path root : PathUri) : Option (PathUri × Text) :=
  protectedMetadataPathNames.findSome? fun metadataName =>
    match PathUri.joinDescendant lib root metadataName with
    | .ok protectedPath =>
      if PathUri.startsWith lib path protectedPath then some (protectedPath, metadataName)
      else none
    | .error _ => none

def metadataWriteDenial (path : PathUri) (context : FileSystemSandboxPolicyContext) : Option Text :=
  if policy.kind = .restricted then
    let entries := resolvedEntries lib policy context
    match (entries.filter fun entry => entry.2.canWrite).findSome? fun entry =>
        protectedDirectory lib path entry.1 with
    | none => none
    | some (protectedPath, metadataName) =>
      if entries.any fun entry =>
          entry.2.canWrite && PathUri.startsWith lib path entry.1 &&
            PathUri.startsWith lib entry.1 protectedPath then none
      else some metadataName
  else none

def canWritePath (path : PathUri) (context : FileSystemSandboxPolicyContext) : Bool :=
  (resolveAccess lib policy path context).canWrite &&
    (hasFullDiskWriteAccessWithContext lib policy context ||
      (metadataWriteDenial lib policy path context).isNone)

end FileSystemSandboxPolicy

end

end CodexFormal.Permissions
