import CodexFormal.Permissions.ReadableRoots

/-!
# The mount plan of the Linux sandbox

The filesystem arguments of the sandbox are a list of operations that are
applied in order: a base view of the file system, masks for denied directories
above writable roots, each writable root with its read-only and denied paths,
and masks for the other denied paths.
-/

set_option autoImplicit false

namespace CodexFormal.LinuxSandbox

open Uri Permissions
open Patch (Text)

inductive BwrapOperation where
  | bind (path : AbsolutePathBuf)
  | roBind (path : AbsolutePathBuf)
  | roBindData (path : AbsolutePathBuf)
  | tmpfs (path : AbsolutePathBuf)
  | dev (path : AbsolutePathBuf)
  | dir (path : AbsolutePathBuf)
  | perms (mode : Text)
  | remountRo (path : AbsolutePathBuf)
deriving DecidableEq, Repr

inductive CodexErr where
  | fatal (message : Text)
deriving DecidableEq, Repr

/-- The host as the sandbox helper sees it. -/
structure SandboxHost extends LocalHost where
  daemonDirectory : AbsolutePathBuf
  registryRoot : AbsolutePathBuf
  scanGlobs : List Text → Option Nat → List AbsolutePathBuf

structure BwrapOptions where
  maskWslgDistro : Bool
  globScanMaxDepth : Option Nat
deriving DecidableEq, Repr

def absolutePath (text : Text) : AbsolutePathBuf :=
  AbsolutePathBuf.absolutizeFrom text AbsolutePathBuf.root

def linuxPlatformDefaultReadRoots : List AbsolutePathBuf :=
  ["/bin".toList, "/sbin".toList, "/usr".toList, "/etc".toList, "/lib".toList, "/lib64".toList,
    "/nix/store".toList, "/run/current-system/sw".toList].map absolutePath

def wslgDistroRoot : AbsolutePathBuf := absolutePath "/mnt/wslg/distro".toList

def deviceDirectory : AbsolutePathBuf := absolutePath "/dev".toList

def sortedPaths (paths : List AbsolutePathBuf) : List AbsolutePathBuf :=
  (paths.insertionSort fun first second => pathLe first second = true).eraseDups

/-- The root counts as a component. -/
def pathDepth (path : AbsolutePathBuf) : Nat := path.names.length + 1

def sortedByDepth (paths : List AbsolutePathBuf) : List AbsolutePathBuf :=
  paths.insertionSort fun first second => pathDepth first ≤ pathDepth second

def isWithinAllowedWritePaths (path : AbsolutePathBuf) (allowed : List AbsolutePathBuf) : Bool :=
  allowed.any fun root => path.startsWith root

def isProtectedMetadataName (name : Text) : Bool := protectedMetadataPathNames.contains name

def endsInProtectedMetadataName (path : AbsolutePathBuf) : Bool :=
  match path.names.getLast? with
  | some name => isProtectedMetadataName name
  | none => false

section

variable (host : SandboxHost)

def findFirstNonExistentComponent (target : AbsolutePathBuf) : Option AbsolutePathBuf :=
  ((List.range target.names.length).map fun count => target.take (count + 1)).find?
    fun component => !host.pathExists component

def mountTargetDirs (directory anchor : AbsolutePathBuf) : List BwrapOperation :=
  (directory.ancestors.takeWhile (· != anchor)).reverse.map BwrapOperation.dir

def mountTargetParentDirArgs (mountTarget anchor : AbsolutePathBuf) : List BwrapOperation :=
  if host.isDir mountTarget then mountTargetDirs mountTarget anchor
  else match mountTarget.parent with
    | some directory => mountTargetDirs directory anchor
    | none => []

variable (path : AbsolutePathBuf)

def emptyDirectoryArgs : List BwrapOperation :=
  [.perms "555".toList, .tmpfs path, .remountRo path]

def missingReadOnlySubpathArgs : List BwrapOperation :=
  if endsInProtectedMetadataName path then emptyDirectoryArgs path else [.roBindData path]

def existingUnreadablePathArgs (unreadableRoot : AbsolutePathBuf)
    (allowed : List AbsolutePathBuf) : List BwrapOperation :=
  if host.isDir unreadableRoot then
    let writableDescendants := allowed.filter fun path =>
      path != unreadableRoot && path.startsWith unreadableRoot
    [.perms (if writableDescendants.isEmpty then "000".toList else "111".toList),
      .tmpfs unreadableRoot] ++
      (sortedByDepth writableDescendants).flatMap
        (mountTargetParentDirArgs host · unreadableRoot) ++
      [.remountRo unreadableRoot]
  else [.perms "000".toList, .roBindData unreadableRoot]

variable (allowed : List AbsolutePathBuf)

def unreadableRootArgs (unreadableRoot : AbsolutePathBuf) : List BwrapOperation :=
  if host.pathExists unreadableRoot then existingUnreadablePathArgs host unreadableRoot allowed
  else match findFirstNonExistentComponent host unreadableRoot with
    | some component =>
      if isWithinAllowedWritePaths component allowed then [.roBindData component] else []
    | none => []

/-- What another setup has left at a metadata path: an empty file or an empty directory. -/
inductive EmptyProtectedMetadataPath where
  | file
  | directory
deriving DecidableEq, Repr

def transientEmptyMetadataPath : Option EmptyProtectedMetadataPath :=
  if endsInProtectedMetadataName path then
    match host.node path with
    | some (.file []) => some .file
    | some (.directory true) => some .directory
    | _ => none
  else none

def daemonSocketMask (mountRoot : AbsolutePathBuf) : Except CodexErr (List BwrapOperation) :=
  if mountRoot.startsWith host.daemonDirectory then
    .error (.fatal "app-server socket directory cannot be a sandbox mount root".toList)
  else if host.daemonDirectory.startsWith mountRoot then
    .ok [.perms "000".toList, .tmpfs host.daemonDirectory, .remountRo host.daemonDirectory]
  else .ok []

def transientMetadataArgs (path : AbsolutePathBuf) :
    EmptyProtectedMetadataPath → List BwrapOperation
  | .file => [.roBindData path]
  | .directory => emptyDirectoryArgs path

def settledSubpathArgs (subpath : AbsolutePathBuf) : Except CodexErr (List BwrapOperation) :=
  if !host.pathExists subpath then
    match findFirstNonExistentComponent host subpath with
    | some component =>
      if isWithinAllowedWritePaths component allowed then
        .ok (missingReadOnlySubpathArgs component)
      else .ok []
    | none => .ok []
  else if isWithinAllowedWritePaths subpath allowed then do
    let mask ← daemonSocketMask host subpath
    return .roBind subpath :: mask
  else .ok []

def readOnlySubpathArgs (subpath : AbsolutePathBuf) : Except CodexErr (List BwrapOperation) :=
  match transientEmptyMetadataPath host subpath with
  | some metadata =>
    if isWithinAllowedWritePaths subpath allowed then .ok (transientMetadataArgs subpath metadata)
    else settledSubpathArgs host allowed subpath
  | none => settledSubpathArgs host allowed subpath

def registryArgs (mountRoot : AbsolutePathBuf) : List BwrapOperation :=
  if host.registryRoot.startsWith mountRoot then [.roBind host.registryRoot]
  else if mountRoot.startsWith host.registryRoot then [.roBind mountRoot]
  else []

def expandUnreadableGlobsWithRipgrep (patterns : List Text) (maxDepth : Option Nat) :
    List AbsolutePathBuf :=
  if patterns.isEmpty || maxDepth == some 0 then [] else host.scanGlobs patterns maxDepth

end

/-- Text of one component, up to slashes and dots that follow it. -/
def isSameComponent (subpath name : Text) : Bool :=
  match PathConvention.posix.pathSegments subpath with
  | first :: rest => first == name && rest.all fun segment => segment == [] || segment == ['.']
  | [] => false

def metadataPathMasks (subpaths : List AbsolutePathBuf) (root : AbsolutePathBuf)
    (protectedMetadataNames : List Text) : List AbsolutePathBuf :=
  protectedMetadataNames.foldl (fun subpaths name =>
    if subpaths.contains (root.push name) then subpaths else subpaths ++ [root.push name]) subpaths

section

variable (lib : UrlLibrary) (host : SandboxHost) (policy : FileSystemSandboxPolicy)
  (cwd : AbsolutePathBuf) (options : BwrapOptions)

def existingWritableRoots : List WritableRoot :=
  let writableRoots := (policy.getWritableRootsWithCwd lib host.toLocalHost cwd).filter fun root =>
    host.pathExists root.root
  if writableRoots.isEmpty && policy.hasFullDiskWriteAccess lib &&
      !(policy.getUnreadableGlobsWithCwd host.toLocalHost cwd).isEmpty then
    [⟨AbsolutePathBuf.root, [], []⟩]
  else writableRoots

def missingAutoMetadataSubpath (entry : FileSystemSandboxEntry) : Option AbsolutePathBuf :=
  match entry.access, entry.path with
  | .read, .special (.projectRoots (some subpath)) =>
    let resolved := host.resolvePathAgainstBase subpath cwd
    if protectedMetadataPathNames.any (isSameComponent subpath) && !host.pathExists resolved then
      some resolved
    else none
  | _, _ => none

def missingAutoMetadataSubpaths : List AbsolutePathBuf :=
  policy.entries.filterMap (missingAutoMetadataSubpath host cwd)

def unreadableRoots : List AbsolutePathBuf :=
  sortedPaths (policy.getUnreadableRootsWithCwd lib host.toLocalHost cwd ++
    expandUnreadableGlobsWithRipgrep host (policy.getUnreadableGlobsWithCwd host.toLocalHost cwd)
      (options.globScanMaxDepth.or policy.globScanMaxDepth))

def readableRoots : List AbsolutePathBuf :=
  sortedPaths (policy.getReadableRootsWithCwd lib host.toLocalHost cwd ++
    if policy.includePlatformDefaults then
      linuxPlatformDefaultReadRoots.filter fun path => host.pathExists path
    else [])

variable (root : AbsolutePathBuf)

def readableRootArgs : Except CodexErr (List BwrapOperation) :=
  if host.pathExists root then do
    let mask ← daemonSocketMask host root
    return .roBind root :: mask
  else .ok []

def baseArgs : Except CodexErr (List BwrapOperation) :=
  if policy.hasFullDiskReadAccess ||
      (readableRoots lib host policy cwd).contains AbsolutePathBuf.root then do
    let mask ← daemonSocketMask host AbsolutePathBuf.root
    return [.roBind AbsolutePathBuf.root, .dev deviceDirectory] ++ mask
  else do
    let mounted ← (readableRoots lib host policy cwd).mapM (readableRootArgs host)
    return [.tmpfs AbsolutePathBuf.root, .dev deviceDirectory] ++ mounted.flatten

def subpathsToMount (root : WritableRoot) : List AbsolutePathBuf :=
  let kept := (root.readOnlySubpaths.filter fun path =>
    !(unreadableRoots lib host policy cwd options).contains path).filter fun path =>
      !(missingAutoMetadataSubpaths host policy cwd).contains path
  sortedByDepth (metadataPathMasks kept root.root root.protectedMetadataNames)

def maskedParentArgs : List BwrapOperation :=
  match (sortedByDepth ((unreadableRoots lib host policy cwd options).filter fun unreadableRoot =>
      root.startsWith unreadableRoot)).getLast? with
  | some maskingRoot => mountTargetParentDirArgs host root maskingRoot
  | none => []

variable (allowed : List AbsolutePathBuf)

def nestedUnreadableArgs (root : AbsolutePathBuf) : List BwrapOperation :=
  (sortedByDepth ((unreadableRoots lib host policy cwd options).filter fun unreadableRoot =>
    unreadableRoot.startsWith root)).flatMap (unreadableRootArgs host allowed)

def writableRootArgs (root : WritableRoot) : Except CodexErr (List BwrapOperation) := do
  let mask ← daemonSocketMask host root.root
  let readOnly ← (subpathsToMount lib host policy cwd options root).mapM
    (readOnlySubpathArgs host allowed)
  return maskedParentArgs lib host policy cwd options root.root ++ [.bind root.root] ++ mask ++
    readOnly.flatten ++ registryArgs host root.root ++
    nestedUnreadableArgs lib host policy cwd options allowed root.root

def unreadableAncestorArgs : List BwrapOperation :=
  (sortedByDepth ((unreadableRoots lib host policy cwd options).filter fun unreadableRoot =>
    !(allowed.any fun root => unreadableRoot.startsWith root) &&
      allowed.any fun root => root.startsWith unreadableRoot)).flatMap
    (unreadableRootArgs host allowed)

def rootlessUnreadableArgs : List BwrapOperation :=
  (sortedByDepth ((unreadableRoots lib host policy cwd options).filter fun unreadableRoot =>
    !(allowed.any fun root =>
      unreadableRoot.startsWith root || root.startsWith unreadableRoot))).flatMap
    (unreadableRootArgs host allowed)

def wslgDistroArgs : List BwrapOperation :=
  if options.maskWslgDistro &&
      !(unreadableRoots lib host policy cwd options).any fun denied =>
        wslgDistroRoot.startsWith denied &&
          !(allowed.any fun root => root.startsWith denied &&
            (wslgDistroRoot.startsWith root || root.startsWith wslgDistroRoot)) then
    [.perms "000".toList, .tmpfs wslgDistroRoot, .remountRo wslgDistroRoot]
  else []

def allowedWritePaths : List AbsolutePathBuf :=
  (existingWritableRoots lib host policy cwd).map fun root => root.root

def sortedWritableRoots : List WritableRoot :=
  (existingWritableRoots lib host policy cwd).insertionSort fun first second =>
    pathDepth first.root ≤ pathDepth second.root

def createFilesystemArgs : Except CodexErr (List BwrapOperation) := do
  let allowed := allowedWritePaths lib host policy cwd
  let base ← baseArgs lib host policy cwd
  let writable ← (sortedWritableRoots lib host policy cwd).mapM
    (writableRootArgs lib host policy cwd options allowed)
  return base ++ unreadableAncestorArgs lib host policy cwd options allowed ++ writable.flatten ++
    rootlessUnreadableArgs lib host policy cwd options allowed ++
    wslgDistroArgs lib host policy cwd options allowed

end

end CodexFormal.LinuxSandbox
