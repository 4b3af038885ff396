import CodexFormal.Uri.Join

/-!
# Directories of glob patterns

A directory can stand in a glob pattern as it is if its native text is
unambiguous and holds no character that patterns give a meaning to.
-/

set_option autoImplicit false

namespace CodexFormal.Uri

open Patch (Text)

def containsGlobMetacharacter (path : Text) : Bool :=
  path.any fun c => c == '*' || c == '?' || c == '[' || c == ']' || c == '\x7b' || c == '\x7d'

def hasWindowsComponentColon : List Text → Bool
  | [] => false
  | first :: rest =>
    (match first with
      | drive :: ':' :: more => if drive.isAlpha then more.contains ':' else true
      | _ => first.contains ':') ||
      rest.any fun segment => segment.contains ':'

def mixesHomeSeparators (suffix : Text) : Bool :=
  (suffix.head? == some '/' && (suffix.dropWhile (· == '/')).head? == some '\\') ||
    (suffix.head? == some '\\' && (suffix.dropWhile (· == '\\')).head? == some '/')

def validateConfigPathText (input : Text) (convention : PathConvention) : Bool :=
  let nativeInput := (normalizeWindowsDevicePath input).getD input
  !(input.contains '\x00' ||
    (convention == .windows &&
      (hasWindowsComponentColon (PathConvention.windows.pathSegments nativeInput) ||
        (match PathConvention.windows.homeRelativeSuffix input with
          | some suffix => mixesHomeSeparators suffix
          | none => false) ||
        match nativeInput with
        | [drive, ':'] => drive.isAlpha
        | _ => false)))

namespace PathUri

variable (lib : UrlLibrary) (replaced : Bytes → Text) (uri : PathUri)

def hasNull : Bool :=
  match uri with
  | file url => url.segments.any fun segment => (lib.decodeSegment segment).contains '\x00'
  | fallback _ => true

def validateConfigPath (convention : PathConvention) : Bool :=
  inferPathConvention uri == some convention && (lexicalDepth lib uri).isSome &&
    !hasNull lib uri &&
    match render lib replaced uri convention with
    | .ok path => validateConfigPathText path convention
    | .error _ => false

def validateGlobDirectory (convention : PathConvention) : Bool :=
  validateConfigPath lib replaced uri convention &&
    match render lib replaced uri convention with
    | .ok path =>
      !(containsGlobMetacharacter path || (convention == .posix && path.contains '\\'))
    | .error _ => false

def inferredNativePathString : Text :=
  match inferPathConvention uri with
  | none => toText lib uri
  | some convention =>
    match render lib replaced uri convention with
    | .ok path => path
    | .error _ => toText lib uri

end PathUri

end CodexFormal.Uri
