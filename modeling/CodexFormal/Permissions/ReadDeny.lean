import CodexFormal.Permissions.Materialize

/-!
# Denied reads

The matcher for denied reads of an executor's paths: the roots that are denied,
other than the root of the file system, and the denied patterns.  A pattern that
cannot be used denies everything.  Compiling a pattern is the work of the glob
library, which is an argument.
-/

set_option autoImplicit false

namespace CodexFormal.Permissions

open Uri List PathUri
open Patch (Text)

/-- The glob library: a pattern is compiled to a test of path text. -/
abbrev GlobLibrary := Text → PathConvention → Option (Text → Bool)

def withForwardSlashes (text : Text) : Text := text.map fun c => if c = '\\' then '/' else c

def homeRelativePattern (isWindows : Bool) (pattern : Text) : Option Text :=
  match pattern with
  | '~' :: '/' :: suffix => some suffix
  | '~' :: '\\' :: suffix => if isWindows then some suffix else none
  | _ => none

def trimStartSeparators (isWindows : Bool) (text : Text) : Text :=
  text.dropWhile fun separator => separator == '/' || (isWindows && separator == '\\')

section

variable (lib : UrlLibrary) (replaced : Bytes → Text) (globs : GlobLibrary)

def buildGlobMatcher (pattern : Text) (convention : PathConvention) : Option (Text → Bool) :=
  match convention with
  | .posix => globs pattern convention
  | .windows => globs (withForwardSlashes pattern) convention

def decodedPath : PathUri → Text
  | .file url => '/' :: List.intercalate ['/'] (url.segments.map lib.decodeSegment)
  | .fallback bytes => "/\x00/bad/path/".toList ++ lib.encodeBase64 bytes

structure ReadDenyMatcher where
  deniedRoots : List PathUri
  denyReadMatchers : List (Text → Bool)
  invalidPattern : Bool

namespace FileSystemSandboxPolicy

variable (context : FileSystemSandboxPolicyContext)

def denyReadGlob (pattern : Text) : Option Text :=
  let isWindows := PathUri.inferPathConvention context.cwd == some .windows
  let convention : PathConvention := if isWindows then .windows else .posix
  let target :=
    match homeRelativePattern isWindows pattern with
    | some suffix =>
      context.userHomeDir.map fun home => (home, trimStartSeparators isWindows suffix)
    | none => some (context.cwd, pattern)
  target.bind fun (root, pattern) =>
    if (PathUri.toPathUri lib pattern convention).toOption.isNone &&
        !PathUri.validateGlobDirectory lib replaced root convention then none
    else (PathUri.join lib root pattern).toOption.map
      (PathUri.inferredNativePathString lib replaced)

def deniedPattern (entry : FileSystemSandboxEntry) : Option Text :=
  match entry.path with
  | .globPattern pattern => if entry.access == .deny then some pattern else none
  | _ => none

variable (policy : FileSystemSandboxPolicy) (context : FileSystemSandboxPolicyContext)

/-- The denied patterns as native text; `none` if one of them has no meaning here. -/
def denyReadGlobs : Option (List Text) :=
  (policy.entries.filterMap deniedPattern).mapM (denyReadGlob lib replaced context)

def isFileSystemRoot (root : PathUri) : Bool :=
  match fileSystemRoot lib context with
  | some fileSystemRoot =>
    PathUri.startsWith lib root fileSystemRoot && PathUri.startsWith lib fileSystemRoot root
  | none => false

def deniedReadRoots : List PathUri :=
  ((resolvedEntries lib policy context).filter fun entry =>
    entry.2 == .deny && !isFileSystemRoot lib context entry.1).map Prod.fst

/-- The matcher that fails closed on malformed patterns. -/
def prepareDenyReadMatcher : ReadDenyMatcher :=
  let deniedRoots := deniedReadRoots lib policy context
  match PathUri.inferPathConvention context.cwd with
  | none => ⟨deniedRoots, [], true⟩
  | some convention =>
    match denyReadGlobs lib replaced policy context with
    | none => ⟨deniedRoots, [], true⟩
    | some patterns =>
      let matchers := patterns.map fun pattern => buildGlobMatcher globs pattern convention
      ⟨deniedRoots, matchers.filterMap id, matchers.any Option.isNone⟩

end FileSystemSandboxPolicy

namespace ReadDenyMatcher

open FileSystemSandboxPolicy

variable (policy : FileSystemSandboxPolicy) (context : FileSystemSandboxPolicyContext)

def fromContext : Option ReadDenyMatcher :=
  if policy.entries.any fun entry => entry.access == .deny then
    some (prepareDenyReadMatcher lib replaced globs policy context)
  else none

def isReadDeniedUri (matcher : ReadDenyMatcher) (path : PathUri)
    (context : FileSystemSandboxPolicyContext) : Bool :=
  match PathUri.inferPathConvention context.cwd with
  | none => true
  | some convention =>
    if PathUri.inferPathConvention path ≠ some convention ∨
        (PathUri.lexicalDepth lib path).isNone ∨ (PathUri.lexicalDepth lib context.cwd).isNone ∨
        matcher.invalidPattern then true
    else
      (matcher.deniedRoots.any fun root => PathUri.startsWith lib path root) ||
        matcher.denyReadMatchers.any fun matchesText =>
          matchesText (match convention with
            | .posix => decodedPath lib path
            | .windows => withForwardSlashes (PathUri.inferredNativePathString lib replaced path))

section

variable (path : PathUri) (noPatterns : ∀ entry ∈ policy.entries, deniedPattern entry = none)
  (resolves : isResolvable lib context path = true)

include noPatterns resolves

/-- Without patterns, a path is denied by a denied root other than that of the file system. -/
theorem isReadDeniedUri_iff :
    isReadDeniedUri lib replaced (prepareDenyReadMatcher lib replaced globs policy context) path
    context = true ↔ ∃ root, (root, .deny) ∈ resolvedEntries lib policy context ∧
    isFileSystemRoot lib context root = false ∧ startsWith lib path root = true := by
  have noGlobs : denyReadGlobs lib replaced policy context = some [] := by
    have none : policy.entries.filterMap deniedPattern = [] :=
      filterMap_eq_nil_iff.mpr noPatterns
    rw [denyReadGlobs, none]
    rfl
  unfold isResolvable at resolves
  cases conv : inferPathConvention context.cwd with
  | none => simp [conv] at resolves
  | some conv =>
    simp only [conv, Bool.and_eq_true, beq_iff_eq] at resolves
    obtain ⟨⟨samePath, pathDepth⟩, cwdDepth⟩ := resolves
    obtain ⟨depth, pathDepth⟩ := Option.isSome_iff_exists.mp pathDepth
    obtain ⟨cwdDepth, cwdLexical⟩ := Option.isSome_iff_exists.mp cwdDepth
    simp only [isReadDeniedUri, prepareDenyReadMatcher, conv, noGlobs, samePath, pathDepth,
      cwdLexical, map_nil, any_nil, filterMap_nil, Option.isNone_some, ne_eq,
      not_true_eq_false, Bool.false_eq_true, or_self, if_false, Bool.or_false, deniedReadRoots,
      any_map, any_filter, any_eq_true, Bool.and_eq_true, beq_iff_eq,
      Bool.not_eq_true', Function.comp_apply, Prod.exists]
    constructor
    · rintro ⟨root, mode, mem, ⟨rfl, notRoot⟩, covers⟩
      exact ⟨root, mem, notRoot, covers⟩
    · rintro ⟨root, mem, notRoot, covers⟩
      exact ⟨root, .deny, mem, ⟨rfl, notRoot⟩, covers⟩

theorem fromContext_any_isReadDeniedUri_iff :
    ((fromContext lib replaced globs policy context).any fun matcher =>
    matcher.isReadDeniedUri lib replaced path context) = true ↔
    ∃ root, (root, .deny) ∈ resolvedEntries lib policy context ∧
    isFileSystemRoot lib context root = false ∧ startsWith lib path root = true := by
  unfold fromContext
  split
  · rw [Option.any_some]
    exact isReadDeniedUri_iff lib replaced globs policy context path noPatterns resolves
  next noDenial =>
    refine iff_of_false Bool.false_ne_true ?_
    rintro ⟨root, mem, _⟩
    obtain ⟨entry, isIn, resolved⟩ := mem_flatMap.mp mem
    obtain ⟨_, _, mode⟩ := mem_resolvedEntry.mp resolved
    exact noDenial (any_eq_true.mpr ⟨entry, isIn, beq_iff_eq.mpr mode.symm⟩)

end

end ReadDenyMatcher

def IsRootPlace (context : FileSystemSandboxPolicyContext) (place : Location) : Prop :=
  ∃ root, fileSystemRoot lib context = some root ∧ PathUri.location lib root = some place

variable {lib} in
theorem isFileSystemRoot_iff {context : FileSystemSandboxPolicyContext} {root : PathUri}
    {place : Location} (loc : location lib root = some place) :
    FileSystemSandboxPolicy.isFileSystemRoot lib context root = true ↔
    IsRootPlace lib context place := by
  unfold FileSystemSandboxPolicy.isFileSystemRoot IsRootPlace
  cases found : fileSystemRoot lib context with
  | none => simp
  | some fileSystemRoot =>
    simp only [Bool.and_eq_true, Option.some.injEq, exists_eq_left']
    constructor
    · rintro ⟨below, above⟩
      obtain ⟨rootPlace, rootLoc, within⟩ :=
        (startsWith_iff loc).mp below
      obtain ⟨other, otherLoc, otherWithin⟩ :=
        (startsWith_iff rootLoc).mp above
      cases loc.symm.trans otherLoc
      rw [rootLoc, otherWithin.eq_of_depth_le within.depth_le]
    · intro rootLoc
      exact ⟨(startsWith_iff loc).mpr ⟨place, rootLoc, Location.Within.refl place⟩,
        (startsWith_iff rootLoc).mpr ⟨place, loc, Location.Within.refl place⟩⟩

end

end CodexFormal.Permissions
