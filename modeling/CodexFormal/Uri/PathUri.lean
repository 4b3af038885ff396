import CodexFormal.Patch.Text

/-!
# Path URIs

A path URI is a file URL, given by its authority and its percent-encoded path
segments, or a fallback that stores the bytes of a native path without a URL of
its own.  What the URL library does with a segment or a host is an argument.
Decoded segments are text: names that are not UTF-8 have no place in this model.
-/

set_option autoImplicit false

namespace CodexFormal.Uri

open Patch (Text)

abbrev Bytes := List UInt8

inductive PathConvention where
  | posix
  | windows
deriving DecidableEq, Repr

def lowercase (text : Text) : Text := text.map Char.toLower

def eqIgnoreAsciiCase (first second : Text) : Bool := lowercase first == lowercase second

def isWindowsSeparator (c : Char) : Bool := c == '\\' || c == '/'

namespace PathConvention

def isSeparator : PathConvention → Char → Bool
  | posix, c => c == '/'
  | windows, c => isWindowsSeparator c

def pathSegments (convention : PathConvention) (path : Text) : List Text :=
  path.splitOnP convention.isSeparator

/-- The segments that a path keeps whatever is resolved against it: drive or share. -/
def anchorDepth : PathConvention → Nat
  | posix => 0
  | windows => 1

/-- What follows the tilde of a path below the home directory. -/
def homeRelativeSuffix (convention : PathConvention) (path : Text) : Option Text :=
  match path with
  | '~' :: suffix =>
    match suffix with
    | [] => some []
    | c :: _ => if convention.isSeparator c then some suffix else none
  | _ => none

end PathConvention

def isWindowsDriveUriSegment : Text → Bool
  | [drive, ':'] => drive.isAlpha
  | [drive, '%', '3', 'A'] => drive.isAlpha
  | [drive, '%', '3', 'a'] => drive.isAlpha
  | _ => false

/-- What the URL libraries do with the segments of a path and with a host. -/
structure UrlLibrary where
  encodeSegment : Text → Text
  decodeSegment : Text → Text
  parseHost : Text → Option Text
  encodeBase64 : Bytes → Text
  decode_encode : ∀ text, decodeSegment (encodeSegment text) = text
  decode_eq_nil : ∀ segment, decodeSegment segment = [] ↔ segment = []
  decode_lowercase : ∀ first second, lowercase first = lowercase second →
    lowercase (decodeSegment first) = lowercase (decodeSegment second)
  encode_drive : ∀ drive, drive.isAlpha = true → encodeSegment [drive, ':'] = [drive, ':']
  drive_of_encode : ∀ text, isWindowsDriveUriSegment (encodeSegment text) = true →
    ∃ drive, text = [drive, ':']

/-- The segments are what stands between the slashes of the path, so that there is at least one. -/
structure FileUrl where
  host : Option Text
  segments : List Text
deriving DecidableEq, Repr

namespace FileUrl

variable (url : FileUrl)

def nonEmptySegments : List Text := url.segments.filter (· ≠ [])

variable (segments : List Text)

/-- The path without a final slash. -/
def popIfEmpty : List Text :=
  if segments.getLast? = some [] ∧ 1 < segments.length then segments.dropLast else segments

def pop : List Text :=
  match segments.dropLast with
  | [] => [[]]
  | kept => kept

/-- A segment pushed onto the empty path replaces it. -/
def push (segment : Text) : List Text :=
  if segments = [[]] then [segment] else segments ++ [segment]

def withoutLocalhostAuthority : FileUrl :=
  if url.host = some "localhost".toList then { url with host := none } else url

def upperDrive : List Text → List Text
  | [] => []
  | [] :: rest => [] :: upperDrive rest
  | segment :: rest =>
    (if isWindowsDriveUriSegment segment then segment.modifyHead Char.toUpper else segment) ::
      rest

def withNormalizedWindowsDriveLetter : FileUrl :=
  if url.host.isSome then url else { url with segments := upperDrive url.segments }

end FileUrl

inductive PathUri where
  | file (url : FileUrl)
  | fallback (bytes : Bytes)
deriving DecidableEq, Repr

inductive PathUriParseError where
  | invalidFileUriPath (path : Text)
  | joinPathMustBeDescendant (path : Text)
deriving DecidableEq, Repr

namespace PathUri

variable (lib : UrlLibrary)

def badPathUriPrefix : Text := "file:///%00/bad/path/".toList

/-- The canonical URI string. -/
def toText : PathUri → Text
  | file url =>
    "file://".toList ++ url.host.getD [] ++ '/' :: List.intercalate ['/'] url.segments
  | fallback bytes => badPathUriPrefix ++ lib.encodeBase64 bytes

/-- A file URL whose path holds no null character. -/
def tryFrom (url : FileUrl) : Except PathUriParseError PathUri :=
  if url.segments.any fun segment => (lib.decodeSegment segment).contains '\x00' then
    .error (.invalidFileUriPath (toText lib (file url)))
  else .ok (file url.withoutLocalhostAuthority.withNormalizedWindowsDriveLetter)

/-- An absolute POSIX byte path, or the UTF-16 units of a Windows drive or UNC path. -/
def inferFallbackConvention (bytes : Bytes) : Option PathConvention :=
  if bytes.head? = some 0x2F then some .posix
  else if bytes.length % 2 ≠ 0 then none
  else match bytes with
    | firstLow :: firstHigh :: secondLow :: secondHigh :: _ =>
      let hasDrive := firstHigh == 0 && (Char.ofNat firstLow.toNat).isAlpha &&
        secondLow == 0x3A && secondHigh == 0
      let hasUncPrefix := firstLow == 0x5C && firstHigh == 0 && secondLow == 0x5C &&
        secondHigh == 0
      if hasDrive || hasUncPrefix then some .windows else none
    | _ => none

def inferPathConvention : PathUri → Option PathConvention
  | fallback bytes => inferFallbackConvention bytes
  | file url =>
    if url.host.isSome then some .windows
    else match url.segments.find? (· ≠ []) with
      | some segment => if isWindowsDriveUriSegment segment then some .windows else some .posix
      | none => some .posix

def isFallback : PathUri → Bool
  | fallback _ => true
  | file _ => false

/-- The segments, unless one of them decodes to text with a separator in it. -/
def containmentPathSegments (url : FileUrl) (convention : PathConvention) : Option (List Text) :=
  if url.nonEmptySegments.any fun segment =>
      (lib.decodeSegment segment).any convention.isSeparator then none
  else some url.nonEmptySegments

variable (uri : PathUri)

def windowsIdentityPath : Option Text :=
  match uri with
  | fallback _ => none
  | file url =>
    if inferPathConvention uri ≠ some .windows ∨
        url.segments.any fun segment => (lib.decodeSegment segment).any isWindowsSeparator then
      none
    else some ('/' :: List.intercalate ['/'] (url.segments.map lib.decodeSegment))

/-- Equality of path URIs: Windows paths are compared without regard to ASCII case. -/
def eqUri (first second : PathUri) : Bool :=
  first == second ||
    match first, second with
    | file url, file other =>
      match windowsIdentityPath lib first, windowsIdentityPath lib second with
      | some path, some otherPath => url.host == other.host && eqIgnoreAsciiCase path otherPath
      | _, _ => false
    | _, _ => false

def nativeSegmentEq (convention : PathConvention) (path base : Text) : Bool :=
  match convention with
  | .posix => lib.decodeSegment path == lib.decodeSegment base
  | .windows =>
    eqIgnoreAsciiCase path base ||
      eqIgnoreAsciiCase (lib.decodeSegment path) (lib.decodeSegment base)

def nativePathSegmentsStartWith (convention : PathConvention) : List Text → List Text → Bool
  | _, [] => true
  | [], _ :: _ => false
  | path :: pathRest, base :: baseRest =>
    nativeSegmentEq lib convention path base &&
      nativePathSegmentsStartWith convention pathRest baseRest

/-- Lexical containment: the path is the base or below it. -/
def startsWith (path base : PathUri) : Bool :=
  eqUri lib path base ||
    match path, base with
    | file url, file baseUrl =>
      url.host == baseUrl.host && inferPathConvention path == inferPathConvention base &&
        (let convention := (inferPathConvention path).getD .posix
        match containmentPathSegments lib url convention,
            containmentPathSegments lib baseUrl convention with
        | some segments, some baseSegments =>
          nativePathSegmentsStartWith lib convention segments baseSegments
        | _, _ => false)
    | _, _ => false

/-- The number of segments of a path whose components are unambiguous. -/
def lexicalDepth : Option Nat :=
  match uri with
  | fallback _ => none
  | file url =>
    (inferPathConvention uri).bind fun convention =>
      (containmentPathSegments lib url convention).map List.length

/-- Whether the lexical subtrees meet; `none` where the components are ambiguous. -/
def overlaps (first second : PathUri) : Option Bool :=
  if eqUri lib first second then some true
  else do
    let _ ← lexicalDepth lib first
    let _ ← lexicalDepth lib second
    return startsWith lib first second || startsWith lib second first

def basename : PathUri → Option Text
  | fallback _ => none
  | file url => (url.nonEmptySegments.getLast?).map lib.decodeSegment

/-- The lexical parent; the POSIX root, drives and shares have none. -/
def parent : Option PathUri :=
  match uri with
  | fallback _ => none
  | file url =>
    (inferPathConvention uri).bind fun convention =>
      if url.nonEmptySegments.length ≤ convention.anchorDepth then none
      else some (file { url with segments := FileUrl.pop (FileUrl.popIfEmpty url.segments) })

/-- The last of at most as many lexical ancestors as the fuel allows. -/
def lastAncestor : Nat → PathUri → PathUri
  | 0, uri => uri
  | fuel + 1, uri =>
    match parent uri with
    | some above => lastAncestor fuel above
    | none => uri

/-- The last ancestor; every step to a parent shortens the path or empties its only segment. -/
def rootAncestor : PathUri :=
  match uri with
  | fallback _ => uri
  | file url => lastAncestor (url.segments.length + 1) uri

end PathUri

end CodexFormal.Uri
