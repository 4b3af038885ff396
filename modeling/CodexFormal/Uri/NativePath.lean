import CodexFormal.Foundation.Utf16
import CodexFormal.Uri.PathUri

/-!
# Native path text

Absolute path text of either convention becomes an ordinary URI where the
spelling of that URI implies the same convention, and a fallback with the bytes
of the text otherwise.  Rendering reads both back.
-/

set_option autoImplicit false

namespace CodexFormal.Uri

open Foundation
open Patch (Text)

def utf8Bytes (text : Text) : Bytes := text.flatMap String.utf8EncodeChar

/-- Valid bytes decode to their text; what others are replaced by is left open. -/
def fromUtf8Lossy (replaced : Bytes → Text) (bytes : Bytes) : Text :=
  match ByteArray.utf8Decode? ⟨bytes.toArray⟩ with
  | some chars => chars.toList
  | none => replaced bytes

def utf16Bytes (text : Text) : Bytes := Utf16.toBytes (Utf16.encode text)

structure NormalizedSegments where
  segments : List Text
  depth : Nat
  hasTrailingSeparator : Bool
deriving DecidableEq, Repr

def normalizeSegment (anchorDepth : Nat) (state : NormalizedSegments) (segment : Text) :
    NormalizedSegments :=
  if segment = [] then { state with hasTrailingSeparator := true }
  else if segment = ['.'] then { state with hasTrailingSeparator := false }
  else if segment = ['.', '.'] then
    if anchorDepth < state.depth then ⟨state.segments.dropLast, state.depth - 1, false⟩
    else { state with hasTrailingSeparator := false }
  else ⟨state.segments ++ [segment], state.depth + 1, false⟩

def isWindowsDriveAbsolutePath : Text → Bool
  | drive :: ':' :: separator :: _ => drive.isAlpha && isWindowsSeparator separator
  | _ => false

def normalizeWindowsDevicePath (path : Text) : Option Text :=
  match path with
  | '\\' :: '\\' :: namespaceMark :: '\\' :: rest =>
    if namespaceMark = '?' ∨ namespaceMark = '.' then
      match rest with
      | 'U' :: 'N' :: 'C' :: '\\' :: unc => some ('\\' :: '\\' :: unc)
      | _ => if isWindowsDriveAbsolutePath rest then some rest else none
    else none
  | _ => none

namespace PathUri

variable (lib : UrlLibrary) (convention : PathConvention)

def normalizedSegments (host : Option Text) (segments : List Text) : List Text :=
  let normalized := segments.foldl (normalizeSegment convention.anchorDepth) ⟨[], 0, false⟩
  if normalized.hasTrailingSeparator ∨
      convention = .windows ∧ host = none ∧ normalized.depth = convention.anchorDepth then
    normalized.segments ++ [[]]
  else normalized.segments

def parsedHost (host : Option Text) : Option (Option Text) :=
  match host with
  | some host => (lib.parseHost host).map some
  | none => some none

def pathUriFromSegments (host : Option Text) (segments : List Text) : Option PathUri := do
  let parsed ← parsedHost lib host
  let encoded := (normalizedSegments convention host segments).map lib.encodeSegment
  (tryFrom lib ⟨parsed, encoded.foldl FileUrl.push [[]]⟩).toOption

def parsePosixPath (path : Text) : Option PathUri :=
  match path with
  | '/' :: rest =>
    if rest.contains '\x00' then some (fallback (utf8Bytes path))
    else pathUriFromSegments lib .posix none (PathConvention.posix.pathSegments rest)
  | _ => none

variable (path : Text)

def windowsFallback : PathUri := fallback (utf16Bytes path)

def usesNamespace (path : Text) : Bool :=
  match path with
  | first :: second :: mark :: separator :: _ =>
    isWindowsSeparator first && isWindowsSeparator second && (mark == '.' || mark == '?') &&
      isWindowsSeparator separator
  | _ => false

def isDotSegment (segment : Text) : Bool := segment == ['.'] || segment == ['.', '.']

def uncPathUri (path : Text) (host share : Text) (components : List Text) : PathUri :=
  match pathUriFromSegments lib .windows (some host) (share :: components) with
  | some (file url) =>
    match url.host with
    | some parsed => if eqIgnoreAsciiCase parsed host then file url else windowsFallback path
    | none => windowsFallback path
  | _ => windowsFallback path

def parseUnnormalizedWindowsPath : Option PathUri :=
  if usesNamespace path ∨ path.contains '\x00' then some (windowsFallback path)
  else match path with
    | drive :: ':' :: separator :: rest =>
      if drive.isAlpha && isWindowsSeparator separator then
        pathUriFromSegments lib .windows none
          ([drive, ':'] :: PathConvention.windows.pathSegments rest)
      else uncPath path
    | _ => uncPath path
where
  uncPath (path : Text) : Option PathUri :=
    match path with
    | first :: second :: rest =>
        if isWindowsSeparator first && isWindowsSeparator second then
          match PathConvention.windows.pathSegments rest with
          | host :: share :: components =>
              if host = [] ∨ share = [] then none
              else if isDotSegment host ∨ isDotSegment share then some (windowsFallback path)
              else some (uncPathUri lib path host share components)
          | _ => none
        else none
    | _ => none

/-- A host and a share that a UNC path can name. -/
def hasUncHostAndShare (path : Text) : Bool :=
  match path with
  | '\\' :: '\\' :: rest =>
    match PathConvention.windows.pathSegments rest with
    | host :: share :: _ =>
      !(host.isEmpty || isDotSegment host || share.isEmpty || isDotSegment share)
    | _ => false
  | _ => true

def isAliasUri (normalizedPath : Text) (uri : PathUri) : Bool :=
  match uri with
  | fallback _ => false
  | file url =>
    inferPathConvention uri == some .windows &&
      (!List.isPrefixOf ['\\', '\\'] normalizedPath ||
        match url.host with
        | some host => !host.isEmpty
        | none => false)

def parseWindowsPath (path : Text) : Option PathUri :=
  match normalizeWindowsDevicePath path with
  | some normalizedPath =>
    if hasUncHostAndShare normalizedPath then
      match parseUnnormalizedWindowsPath lib normalizedPath with
      | some uri =>
        if isAliasUri normalizedPath uri then some uri else some (windowsFallback path)
      | none => some (windowsFallback path)
    else some (windowsFallback path)
  | none => parseUnnormalizedWindowsPath lib path

def hostIsEmpty : PathUri → Bool
  | file url => url.host == some []
  | fallback _ => false

def parseNativePath (convention : PathConvention) (path : Text) : Option PathUri :=
  match convention with
  | .posix => parsePosixPath lib path
  | .windows => parseWindowsPath lib path

def nativeFallback (convention : PathConvention) (path : Text) : PathUri :=
  match convention with
  | .posix => fallback (utf8Bytes path)
  | .windows => windowsFallback path

def fromAbsoluteNativePath (convention : PathConvention) : Option PathUri :=
  (parseNativePath lib convention path).map fun uri =>
    if !hostIsEmpty uri && inferPathConvention uri == some convention then uri
    else nativeFallback convention path

end PathUri

inductive LegacyAppPathStringError where
  | fallbackNotNative (path : Text)
  | incompatibleConvention (path : Text) (convention : PathConvention)
  | invalidNativePath (path : Text) (convention : PathConvention)
deriving DecidableEq, Repr

namespace PathUri

variable (lib : UrlLibrary) (replaced : Bytes → Text)

/-- The units begin with a rooted drive, a namespace or a UNC host. -/
def hasWindowsRoot (codeUnits : List Nat) : Bool :=
  match codeUnits with
  | first :: second :: rest =>
    (isSeparatorUnit first && isSeparatorUnit second) ||
      ((0x41 ≤ first && first ≤ 0x5A || 0x61 ≤ first && first ≤ 0x7A) && second == 0x3A &&
        match rest with
        | third :: _ => isSeparatorUnit third
        | [] => false)
  | _ => false
where
  isSeparatorUnit (unit : Nat) : Bool := unit == 0x5C || unit == 0x2F

def renderWindowsFallback (bytes : Bytes) : Option Text :=
  match Utf16.ofBytes bytes with
  | some codeUnits =>
    if hasWindowsRoot codeUnits then some (Utf16.decodeLossy codeUnits) else none
  | none => none

def renderFallback (bytes : Bytes) (convention : PathConvention) : Option Text :=
  match convention with
  | .posix => if bytes.head? = some 0x2F then some (fromUtf8Lossy replaced bytes) else none
  | .windows => renderWindowsFallback bytes

def renderPosixPath (url : FileUrl) : Option Text :=
  if url.host.isSome then none
  else some (url.segments.flatMap fun segment => '/' :: lib.decodeSegment segment)

def closeDriveRoot (rendered : Text) : Text :=
  match rendered with
  | [_, ':'] => rendered ++ ['\\']
  | _ => rendered

def renderWindowsSegments (rendered : Text) (segments : List Text) : Text :=
  closeDriveRoot
    (rendered ++ segments.flatMap fun segment => '\\' :: lib.decodeSegment segment)

def renderWindowsPath (url : FileUrl) : Option Text :=
  match url.host, url.segments with
  | _, [] => none
  | some host, share :: segments =>
    if lib.decodeSegment share = [] then none
    else some (renderWindowsSegments lib
      ('\\' :: '\\' :: host ++ '\\' :: lib.decodeSegment share) segments)
  | none, drive :: segments =>
    match lib.decodeSegment drive with
    | [letter, ':'] =>
      if letter.isAlpha then some (renderWindowsSegments lib [letter, ':'] segments) else none
    | _ => none

/-- `LegacyAppPathString::from_path_uri` -/
def render (uri : PathUri) (convention : PathConvention) : Except LegacyAppPathStringError Text :=
  match uri with
  | fallback bytes =>
    match renderFallback replaced bytes convention with
    | some text => .ok text
    | none => .error (.fallbackNotNative (toText lib uri))
  | file url =>
    match (match convention with
      | .posix => renderPosixPath lib url
      | .windows => renderWindowsPath lib url) with
    | some text => .ok text
    | none => .error (.incompatibleConvention (toText lib uri) convention)

def toPathUri (path : Text) (convention : PathConvention) :
    Except LegacyAppPathStringError PathUri :=
  match fromAbsoluteNativePath lib path convention with
  | some uri => .ok uri
  | none => .error (.invalidNativePath path convention)

end PathUri

end CodexFormal.Uri
