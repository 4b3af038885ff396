import CodexFormal.Uri.NativeRoundTrip

/-!
# Joining path text

Native path text is resolved against a path URI: absolute text replaces it, a
Windows path relative to its root keeps the drive or the share, and every other
text is appended component by component without leaving the root.
-/

set_option autoImplicit false

namespace CodexFormal.Uri

open List Option

open Patch (Text)

def PathConvention.separator : PathConvention → Char
  | posix => '/'
  | windows => '\\'

def isWindowsRootRelative : Text → Bool
  | [] => false
  | [first] => isWindowsSeparator first
  | first :: second :: _ => isWindowsSeparator first && !isWindowsSeparator second

def isWindowsDriveRelative : Text → Bool
  | drive :: ':' :: _ => drive.isAlpha
  | _ => false

namespace FileUrl

/-- The first segment names the drive with this letter. -/
def hasDrive (url : FileUrl) (drive : Char) : Bool :=
  match url.segments.find? (· ≠ []) with
  | some (letter :: rest) =>
    isWindowsDriveUriSegment (letter :: rest) && letter.toLower == drive.toLower
  | _ => false

/-- Segments are removed while there are more names than the anchor has. -/
def popToAnchor (anchorDepth : Nat) (segments : List Text) : Nat → List Text × Nat
  | 0 => (segments, 0)
  | depth + 1 =>
    if anchorDepth < depth + 1 then popToAnchor anchorDepth (pop segments) depth
    else (segments, depth + 1)

end FileUrl

namespace PathUri

variable (lib : UrlLibrary)

def joinComponent (anchorDepth : Nat) (state : List Text × Nat) (component : Text) :
    List Text × Nat :=
  if component = [] ∨ component = ['.'] then state
  else if component = ['.', '.'] then
    if anchorDepth < state.2 then (FileUrl.pop state.1, state.2 - 1) else state
  else (FileUrl.push state.1 (lib.encodeSegment component), state.2 + 1)

/-- The text that is left of a path relative to the drive of the base. -/
def withoutOwnDrive (base : PathUri) (convention : PathConvention) (path : Text) :
    Except PathUriParseError Text :=
  if convention = .windows ∧ isWindowsDriveRelative path = true then
    match base, path with
    | file url, drive :: _ =>
      if url.hasDrive drive then .ok (path.drop 2) else .error (.invalidFileUriPath path)
    | _, _ => .error (.invalidFileUriPath path)
  else .ok path

def joinedSegments (url : FileUrl) (convention : PathConvention) (path : Text) : List Text :=
  let segments := FileUrl.popIfEmpty url.segments
  let depth := url.nonEmptySegments.length
  let start :=
    if convention = .windows ∧ isWindowsRootRelative path = true then
      FileUrl.popToAnchor convention.anchorDepth segments depth
    else (segments, depth)
  ((convention.pathSegments path).foldl (joinComponent lib convention.anchorDepth) start).1

def join (base : PathUri) (path : Text) : Except PathUriParseError PathUri :=
  if path.contains '\x00' then .error (.invalidFileUriPath path)
  else if path = [] then .ok base
  else match inferPathConvention base with
    | none => .error (.invalidFileUriPath (toText lib base))
    | some convention =>
      match fromAbsoluteNativePath lib path convention with
      | some absolute => .ok absolute
      | none =>
        (withoutOwnDrive base convention path).bind fun path =>
          match base with
          | fallback _ => .error (.invalidFileUriPath (toText lib base))
          | file url =>
            tryFrom lib { url with segments := joinedSegments lib url convention path }

def namesOwnRoot (convention : PathConvention) (path : Text) : Bool :=
  path.head? == some '/' ||
    (convention == .windows &&
      (path.head? == some '\\' ||
        (PathConvention.windows.pathSegments path).any fun segment => segment.contains ':'))

def joinDescendant (base : PathUri) (path : Text) : Except PathUriParseError PathUri :=
  (join lib base path).bind fun descendant =>
    if namesOwnRoot ((inferPathConvention base).getD .posix) path ||
        !startsWith lib descendant base then
      .error (.joinPathMustBeDescendant path)
    else .ok descendant

end PathUri

/-! ## The anchor of a path -/

namespace FileUrl

def names (segments : List Text) : List Text := segments.filter (· ≠ [])

variable (segments : List Text)

theorem names_popIfEmpty : names (popIfEmpty segments) = names segments := by
  unfold popIfEmpty
  split
  next endsEmpty =>
    rcases eq_nil_or_concat segments with rfl | ⟨initial, last, rfl⟩
    · rfl
    · rw [concat_eq_append] at endsEmpty ⊢
      have empty : last = [] := by simpa using endsEmpty.1
      rw [empty, dropLast_concat, names, names, filter_append]
      simp
  · rfl

theorem names_push {seg : Text} (named : seg ≠ []) :
    names (push segments seg) = names segments ++ [seg] := by
  unfold push
  split
  next root =>
    subst root
    simp [names, named]
  · simp [names, named]

theorem names_pop :
    names (pop segments) = names segments ∨ names (pop segments) = (names segments).dropLast := by
  have popped : names (pop segments) = names segments.dropLast := by
    unfold pop
    split
    next empty =>
      rw [empty]
      rfl
    · rfl
  rw [popped]
  rcases eq_nil_or_concat segments with rfl | ⟨initial, last, rfl⟩
  · exact .inl rfl
  · rw [concat_eq_append, dropLast_concat, names, names, filter_append]
    by_cases empty : last = []
    · exact .inl (by simp [empty])
    · exact .inr (by simp [empty])

/-- The anchor begins the path, and the counted depth is at most the number of its names. -/
def Anchored (anchor : List Text) (state : List Text × Nat) : Prop :=
  anchor <+: names state.1 ∧ state.2 ≤ (names state.1).length

theorem Anchored.pop {anchor : List Text} {segments : List Text} {depth : Nat}
    (fixed : Anchored anchor (segments, depth)) (deep : anchor.length < depth) :
    Anchored anchor (FileUrl.pop segments, depth - 1) := by
  obtain ⟨front, counted⟩ := fixed
  dsimp only at front counted
  rcases names_pop segments with same | short
  · refine ⟨same ▸ front, ?_⟩
    dsimp only
    rw [same]
    omega
  · refine ⟨?_, ?_⟩
    · dsimp only
      rw [short]
      refine prefix_of_prefix_length_le front ?_ ?_
      · exact dropLast_prefix _
      · rw [length_dropLast]
        omega
    · dsimp only
      rw [short, length_dropLast]
      omega

theorem Anchored.popToAnchor (anchorDepth : Nat) (anchor segments : List Text) (depth : Nat)
    (shallow : anchor.length ≤ anchorDepth) (fixed : Anchored anchor (segments, depth)) :
    Anchored anchor (popToAnchor anchorDepth segments depth) := by
  induction depth generalizing segments with
  | zero => exact fixed
  | succ depth ih =>
    unfold FileUrl.popToAnchor
    split
    · exact ih _ (fixed.pop (by omega))
    · exact fixed

end FileUrl

namespace PathUri

variable (lib : UrlLibrary)

theorem joinComponent_anchored (anchorDepth : Nat) (anchor : List Text) (state : List Text × Nat)
    (part : Text) (shallow : anchor.length ≤ anchorDepth) (fixed : FileUrl.Anchored anchor state) :
    FileUrl.Anchored anchor (joinComponent lib anchorDepth state part) := by
  unfold joinComponent
  split_ifs with ignored _ deep
  · exact fixed
  · exact fixed.pop (by omega)
  · exact fixed
  · have named : lib.encodeSegment part ≠ [] := by
      rw [ne_eq, encodeSegment_eq_nil]
      exact fun empty => ignored (.inl empty)
    have pushed := FileUrl.names_push state.1 named
    refine ⟨?_, ?_⟩
    · dsimp only
      rw [pushed]
      exact fixed.1.trans (prefix_append ..)
    · dsimp only
      rw [pushed, length_append, length_singleton]
      have := fixed.2
      omega

theorem joinedSegments_anchored (url : FileUrl) (convention : PathConvention) (path : Text) :
    url.nonEmptySegments.take convention.anchorDepth <+:
    FileUrl.names (joinedSegments lib url convention path) := by
  have shallow := length_take_le convention.anchorDepth url.nonEmptySegments
  have start : FileUrl.Anchored (url.nonEmptySegments.take convention.anchorDepth)
      (FileUrl.popIfEmpty url.segments, url.nonEmptySegments.length) := by
    refine ⟨?_, ?_⟩
    · dsimp only
      rw [FileUrl.names_popIfEmpty]
      exact take_prefix ..
    · dsimp only
      rw [FileUrl.names_popIfEmpty]
      exact Nat.le_refl _
  have run : ∀ (parts : List Text) (state : List Text × Nat),
      FileUrl.Anchored (url.nonEmptySegments.take convention.anchorDepth) state →
      FileUrl.Anchored (url.nonEmptySegments.take convention.anchorDepth)
        (parts.foldl (joinComponent lib convention.anchorDepth) state) := by
    intro parts
    induction parts with
    | nil => exact fun state fixed => fixed
    | cons part rest ih =>
      exact fun state fixed =>
        ih _ (joinComponent_anchored lib _ _ state part shallow fixed)
  unfold joinedSegments
  dsimp only
  split
  · exact (run _ _ (FileUrl.Anchored.popToAnchor _ _ _ _ shallow start)).1
  · exact (run _ _ start).1

end PathUri

/-! ## The names of a path -/

namespace FileUrl

def ofNames (names : List Text) : List Text := if names = [] then [[]] else names

variable (names : List Text)

theorem pop_ofNames : pop (ofNames names) = ofNames names.dropLast := by
  cases names with
  | nil => rfl
  | cons first rest =>
    rw [ofNames, if_neg (cons_ne_nil first rest), pop, ofNames]
    split
    next empty =>
      rw [if_pos empty]
    next kept =>
      rw [if_neg kept]

theorem push_ofNames (seg : Text) (named : ∀ name ∈ names, name ≠ []) :
    push (ofNames names) seg = ofNames (names ++ [seg]) := by
  cases names with
  | nil => rfl
  | cons first rest =>
    have notRoot : first :: rest ≠ [[]] := by
      intro root
      exact named first (mem_cons_self ..) (List.cons.inj root).1
    rw [ofNames, if_neg (cons_ne_nil first rest), push, if_neg notRoot, ofNames, if_neg (by simp)]

theorem filter_ofNames (named : ∀ name ∈ names, name ≠ []) :
    (ofNames names).filter (· ≠ []) = names := by
  cases names with
  | nil => rfl
  | cons first rest =>
    rw [ofNames, if_neg (cons_ne_nil first rest), filter_eq_self]
    simpa using named

theorem popIfEmpty_eq_ofNames (segments : List Text) (ne : segments ≠ [])
    (plain : ∀ seg ∈ segments.dropLast, seg ≠ []) :
    popIfEmpty segments = ofNames (segments.filter (· ≠ [])) := by
  rcases eq_nil_or_concat segments with rfl | ⟨initial, last, rfl⟩
  · exact absurd rfl ne
  · rw [concat_eq_append] at plain ⊢
    rw [dropLast_concat] at plain
    have kept : initial.filter (· ≠ []) = initial := by
      rw [filter_eq_self]
      simpa using plain
    rw [filter_append, kept]
    by_cases empty : last = []
    · subst empty
      cases initial with
      | nil => rfl
      | cons first rest =>
        rw [popIfEmpty, if_pos ⟨getLast?_concat, by simp⟩, dropLast_concat]
        simp [ofNames]
    · simp [popIfEmpty, ofNames, empty]

theorem popToAnchor_ofNames (anchorDepth : Nat) (names : List Text) :
    popToAnchor anchorDepth (ofNames names) names.length =
    (ofNames (names.take anchorDepth), (names.take anchorDepth).length) := by
  induction names using List.reverseRecOn with
  | nil => simp [popToAnchor]
  | append_singleton initial last ih =>
    rw [length_append, length_singleton, popToAnchor]
    split
    next deep =>
      rw [pop_ofNames, dropLast_concat, ih, take_append_of_le_length (by omega)]
    next shallow =>
      rw [take_of_length_le (by simp; omega), length_append, length_singleton]

end FileUrl

namespace PathUri

variable (lib : UrlLibrary)

def resolveComponent (anchorDepth : Nat) (names : List Text) (component : Text) : List Text :=
  if component = [] ∨ component = ['.'] then names
  else if component = ['.', '.'] then
    if anchorDepth < names.length then names.dropLast else names
  else names ++ [lib.encodeSegment component]

def resolveNames (anchorDepth : Nat) (names components : List Text) : List Text :=
  components.foldl (resolveComponent lib anchorDepth) names

variable (anchorDepth : Nat) (names : List Text)

theorem resolveComponent_named (part : Text) (named : ∀ name ∈ names, name ≠ []) :
    ∀ name ∈ resolveComponent lib anchorDepth names part, name ≠ [] := by
  unfold resolveComponent
  intro name mem
  split at mem
  · exact named name mem
  next real =>
    split at mem
    · split at mem
      · exact named name (dropLast_subset names mem)
      · exact named name mem
    · rcases mem_append.mp mem with mem | mem
      · exact named name mem
      · rw [mem_singleton.mp mem, ne_eq, encodeSegment_eq_nil]
        exact fun empty => real (.inl empty)

theorem joinComponent_ofNames (part : Text) (named : ∀ name ∈ names, name ≠ []) :
    joinComponent lib anchorDepth (FileUrl.ofNames names, names.length) part =
    (FileUrl.ofNames (resolveComponent lib anchorDepth names part),
    (resolveComponent lib anchorDepth names part).length) := by
  unfold joinComponent resolveComponent
  dsimp only
  split_ifs
  · rfl
  · rw [FileUrl.pop_ofNames, length_dropLast]
  · rfl
  · rw [FileUrl.push_ofNames names _ named, length_append, length_singleton]

theorem foldl_joinComponent (parts names : List Text) (named : ∀ name ∈ names, name ≠ []) :
    (parts.foldl (joinComponent lib anchorDepth) (FileUrl.ofNames names, names.length)).1 =
    FileUrl.ofNames (resolveNames lib anchorDepth names parts) := by
  unfold resolveNames
  induction parts generalizing names with
  | nil => rfl
  | cons part rest ih =>
    rw [foldl_cons, foldl_cons, joinComponent_ofNames lib _ _ _ named,
      ih _ (resolveComponent_named lib anchorDepth names part named)]

theorem resolveNames_named (parts names : List Text) (named : ∀ name ∈ names, name ≠ []) :
    ∀ name ∈ resolveNames lib anchorDepth names parts, name ≠ [] := by
  unfold resolveNames
  induction parts generalizing names with
  | nil => exact named
  | cons part rest ih =>
    exact ih _ (resolveComponent_named lib anchorDepth names part named)

/-! ## Joining relative text -/

/-- No segment is empty, except that the path can end with a slash. -/
def HasNoEmptyName (url : FileUrl) : Prop :=
  url.segments ≠ [] ∧ ∀ segment ∈ url.segments.dropLast, segment ≠ []

variable (url : FileUrl)

theorem nonEmptySegments_named : ∀ name ∈ url.nonEmptySegments, name ≠ [] := by
  intro name mem
  simpa using (mem_filter.mp mem).2

def startNames (url : FileUrl) (convention : PathConvention) (path : Text) : List Text :=
  if convention = .windows ∧ isWindowsRootRelative path = true then
    url.nonEmptySegments.take convention.anchorDepth
  else url.nonEmptySegments

variable (convention : PathConvention) (path : Text)

theorem startNames_named : ∀ name ∈ startNames url convention path, name ≠ [] := by
  unfold startNames
  split
  · exact fun name mem => nonEmptySegments_named url name (mem_of_mem_take mem)
  · exact nonEmptySegments_named url

theorem joinedSegments_eq (plain : HasNoEmptyName url) : joinedSegments lib url convention path =
    FileUrl.ofNames (resolveNames lib convention.anchorDepth
    (startNames url convention path) (convention.pathSegments path)) := by
  have start : FileUrl.popIfEmpty url.segments = FileUrl.ofNames url.nonEmptySegments :=
    FileUrl.popIfEmpty_eq_ofNames url.segments plain.1 plain.2
  have named := startNames_named url convention path
  unfold joinedSegments startNames at *
  simp only [start]
  split
  next rootRelative =>
    rw [if_pos rootRelative] at named
    rw [FileUrl.popToAnchor_ofNames, foldl_joinComponent lib _ _ _ named]
  next rootRelative =>
    rw [if_neg rootRelative] at named
    rw [foldl_joinComponent lib _ _ _ named]

/-- Text without a root of its own that ends in a path: no UNC prefix and no rooted drive. -/
def isRelativeText (convention : PathConvention) (path : Text) : Bool :=
  match convention with
  | .posix => path.head? ≠ some '/'
  | .windows =>
    !isWindowsDriveAbsolutePath path &&
      match path with
      | first :: second :: _ => !(isWindowsSeparator first && isWindowsSeparator second)
      | _ => true

theorem uncPath_eq_none (relative : isRelativeText .windows path = true) :
    parseUnnormalizedWindowsPath.uncPath lib path = none := by
  unfold parseUnnormalizedWindowsPath.uncPath
  split
  · simp only [isRelativeText, Bool.and_eq_true, Bool.not_eq_true'] at relative
    rw [relative.2, if_neg Bool.false_ne_true]
  · rfl

theorem parseUnnormalizedWindowsPath_relative
    (noNull : path.contains '\x00' = false) (relative : isRelativeText .windows path = true) :
    parseUnnormalizedWindowsPath lib path = none := by
  have noNamespace : usesNamespace path = false := by
    unfold usesNamespace
    split
    · simp only [isRelativeText, Bool.and_eq_true, Bool.not_eq_true'] at relative
      rw [relative.2]
      rfl
    · rfl
  unfold parseUnnormalizedWindowsPath
  rw [noNamespace, noNull, if_neg (by simp)]
  split
  · have noDrive := relative
    simp only [isRelativeText, Bool.and_eq_true, Bool.not_eq_true',
      isWindowsDriveAbsolutePath] at noDrive
    rw [noDrive.1, if_neg Bool.false_ne_true, uncPath_eq_none lib _ relative]
  · exact uncPath_eq_none lib path relative

theorem fromAbsoluteNativePath_relative
    (noNull : path.contains '\x00' = false) (relative : isRelativeText convention path = true) :
    fromAbsoluteNativePath lib path convention = none := by
  unfold fromAbsoluteNativePath
  suffices parses : parseNativePath lib convention path = none by rw [parses]; rfl
  cases convention with
  | posix =>
    unfold isRelativeText at relative
    unfold parseNativePath parsePosixPath
    dsimp only at relative ⊢
    split
    · simp at relative
    · rfl
  | windows =>
    have noAlias : normalizeWindowsDevicePath path = none := by
      rw [eq_none_iff_forall_ne_some]
      intro target isAlias
      obtain ⟨mark, rest, rfl, _⟩ := normalizeWindowsDevicePath_cases isAlias
      simp [isRelativeText, isWindowsSeparator] at relative
    simp only [parseNativePath, parseWindowsPath, noAlias]
    exact parseUnnormalizedWindowsPath_relative lib path noNull relative

variable {url convention path} in
/-- Joining relative text resolves its components, once a drive letter of the base is removed. -/
theorem join_relative (infer : inferPathConvention (file url) = some convention) (ne : path ≠ [])
    (noNull : path.contains '\x00' = false) (relative : isRelativeText convention path = true) :
    join lib (file url) path = (withoutOwnDrive (file url) convention path).bind fun left =>
    tryFrom lib { url with segments := joinedSegments lib url convention left } := by
  unfold join
  rw [noNull, if_neg Bool.false_ne_true, if_neg ne, infer]
  simp [fromAbsoluteNativePath_relative lib convention path noNull relative]

/-! ## Text in two parts -/

/-- A drive letter or a separator at the start of the text is not the whole of it. -/
def ContinuesRelative (convention : PathConvention) (path rest : Text) : Prop :=
  path ≠ [] ∧ isRelativeText convention path = true ∧
    isRelativeText convention (path ++ convention.separator :: rest) = true

theorem isWindowsRootRelative_append {path rest : Text} {separator : Char} (ne : path ≠ [])
    (single : ∀ c, path = [c] → isWindowsSeparator c = false) :
    isWindowsRootRelative (path ++ separator :: rest) = isWindowsRootRelative path := by
  match path with
  | [] => exact absurd rfl ne
  | [c] => simp [isWindowsRootRelative, single c rfl]
  | first :: second :: more => rfl

theorem startNames_append (path rest : Text) (separator : Char) (ne : path ≠ [])
    (single : convention = .windows → ∀ c, path = [c] → isWindowsSeparator c = false) :
    startNames url convention (path ++ separator :: rest) = startNames url convention path := by
  cases convention with
  | posix => rfl
  | windows =>
    unfold startNames
    rw [isWindowsRootRelative_append ne (single rfl)]

theorem resolveNames_append (names first second : List Text) :
    resolveNames lib anchorDepth names (first ++ second) =
      resolveNames lib anchorDepth (resolveNames lib anchorDepth names first) second :=
  foldl_append

variable (base : PathUri)

theorem withoutOwnDrive_of_not_drive (convention : PathConvention) (path : Text)
    (notDrive : isWindowsDriveRelative path = false) :
    withoutOwnDrive base convention path = .ok path :=
  if_neg (by simp [notDrive])

theorem withoutOwnDrive_drive (letter : Char) (path left : Text)
    (gone : withoutOwnDrive base .windows (letter :: ':' :: path) = .ok left)
    (alpha : letter.isAlpha = true) :
    left = path ∧ ∀ other, withoutOwnDrive base .windows (letter :: ':' :: other) = .ok other := by
  have isDrive : ∀ other, isWindowsDriveRelative (letter :: ':' :: other) = true :=
    fun other => alpha
  unfold withoutOwnDrive at gone ⊢
  rw [if_pos ⟨rfl, isDrive path⟩] at gone
  cases base with
  | fallback bytes => cases gone
  | file url =>
    dsimp only at gone
    split at gone
    next sameDrive =>
      refine ⟨(Except.ok.inj gone).symm, fun other => ?_⟩
      rw [if_pos ⟨rfl, isDrive other⟩]
      exact if_pos sameDrive
    · cases gone

variable {base} in
/-- What is left of text in two parts is what is left of the first part, and the second. -/
theorem withoutOwnDrive_append {convention : PathConvention}
    {path rest left : Text} (continues : ContinuesRelative convention path rest)
    (gone : withoutOwnDrive base convention path = .ok left) :
    withoutOwnDrive base convention (path ++ convention.separator :: rest) =
    .ok (left ++ convention.separator :: rest) ∧
    left ≠ [] ∧ (convention = .windows → ∀ c, left = [c] → isWindowsSeparator c = false) := by
  obtain ⟨ne, relative, relativeBoth⟩ := continues
  cases convention with
  | posix =>
    have same : path = left := Except.ok.inj gone
    subst same
    exact ⟨rfl, ne, fun windows => by cases windows⟩
  | windows =>
    match path with
    | [] => exact absurd rfl ne
    | [c] =>
      have same : [c] = left := Except.ok.inj gone
      subst same
      refine ⟨rfl, ne, fun _ other same => ?_⟩
      cases same
      simp only [isRelativeText, singleton_append, Bool.and_eq_true,
        Bool.not_eq_true'] at relativeBoth
      have backslash : isWindowsSeparator PathConvention.windows.separator = true := rfl
      rw [backslash, Bool.and_true] at relativeBoth
      exact relativeBoth.2
    | first :: second :: others =>
      by_cases drive : second = ':' ∧ first.isAlpha = true
      · obtain ⟨rfl, alpha⟩ := drive
        obtain ⟨rfl, any⟩ := withoutOwnDrive_drive base first others left gone alpha
        refine ⟨any _, ?_, ?_⟩
        · rintro rfl
          simp [isRelativeText, isWindowsDriveAbsolutePath, alpha, isWindowsSeparator,
            PathConvention.separator] at relativeBoth
        · rintro _ c rfl
          by_contra separator
          simp [isRelativeText, isWindowsDriveAbsolutePath, alpha, separator] at relative
      · have notDrive : ∀ more, isWindowsDriveRelative (first :: second :: more) = false := by
          intro more
          unfold isWindowsDriveRelative
          split
          next same =>
            cases same
            simpa using drive
          · rfl
        rw [withoutOwnDrive_of_not_drive _ _ _ (notDrive others)] at gone
        have same := Except.ok.inj gone
        subst same
        exact ⟨withoutOwnDrive_of_not_drive _ _ _ (notDrive _), ne,
          fun _ c single => by cases single⟩

/-! ## The joined path -/

theorem tryFrom_eq_ok (uri : PathUri) (isOk : tryFrom lib url = .ok uri) :
    uri = file url.withoutLocalhostAuthority.withNormalizedWindowsDriveLetter := by
  unfold tryFrom at isOk
  split at isOk
  · cases isOk
  · exact (Except.ok.inj isOk).symm

/-- A URL that a path URI holds: validated, with its authority and drive letter normalized. -/
def IsPathUrl (url : FileUrl) : Prop := tryFrom lib url = .ok (file url)

theorem IsPathUrl.not_localhost {lib : UrlLibrary} {url : FileUrl} (valid : IsPathUrl lib url) :
    url.host ≠ some "localhost".toList := by
  intro isLocal
  have norm := PathUri.file.inj (tryFrom_eq_ok lib url _ valid)
  have dropped : url.withoutLocalhostAuthority = { url with host := none } := if_pos isLocal
  rw [dropped] at norm
  have noHost : url.host = none := congrArg FileUrl.host norm
  rw [noHost] at isLocal
  cases isLocal

theorem withNormalized_of_host (notLocal : url.host ≠ some "localhost".toList)
    (hasHost : url.host.isSome = true) :
    url.withoutLocalhostAuthority.withNormalizedWindowsDriveLetter = url := by
  rw [FileUrl.withoutLocalhostAuthority, if_neg notLocal,
    FileUrl.withNormalizedWindowsDriveLetter, if_pos hasHost]

theorem IsPathUrl.upperDrive {lib : UrlLibrary} {segments : List Text}
    (valid : IsPathUrl lib ⟨none, segments⟩) : FileUrl.upperDrive segments = segments :=
  (congrArg FileUrl.segments (PathUri.file.inj (tryFrom_eq_ok lib _ _ valid))).symm

variable (segments : List Text)

theorem upperDrive_of_upper (drive : Text) (first : segments.find? (· ≠ []) = some drive)
    (upper : drive.modifyHead Char.toUpper = drive) : FileUrl.upperDrive segments = segments := by
  induction segments with
  | nil => rfl
  | cons seg rest ih =>
    cases seg with
    | nil => rw [FileUrl.upperDrive, ih (by simpa using first)]
    | cons c text =>
      have same : c :: text = drive := by simpa using first
      subst same
      rw [FileUrl.upperDrive]
      · split
        · rw [upper]
        · rfl
      · exact fun empty => by cases empty

theorem drive_of_windows (windows : inferPathConvention (file ⟨none, segments⟩) = some .windows) :
    ∃ drive, segments.find? (· ≠ []) = some drive ∧ isWindowsDriveUriSegment drive = true := by
  simp only [inferPathConvention, isSome_none, Bool.false_eq_true, if_false] at windows
  split at windows
  next drive found =>
    split at windows
    next isDrive =>
      exact ⟨drive, found, isDrive⟩
    · cases windows
  · cases windows

variable {lib url convention segments} in
/-- Segments that keep the anchor of a path URL make a path URL of the same convention. -/
theorem joined_normalized
    (valid : IsPathUrl lib url) (infer : inferPathConvention (file url) = some convention)
    (fixed : url.nonEmptySegments.take convention.anchorDepth <+: FileUrl.names segments)
    (notDrive : convention = .posix → ∀ name, segments.find? (· ≠ []) = some name →
    isWindowsDriveUriSegment name = false) : FileUrl.withNormalizedWindowsDriveLetter
    (FileUrl.withoutLocalhostAuthority ⟨url.host, segments⟩) = ⟨url.host, segments⟩ ∧
    inferPathConvention (file ⟨url.host, segments⟩) = some convention := by
  obtain ⟨host, orig⟩ := url
  cases host with
  | some host =>
    refine ⟨withNormalized_of_host _ valid.not_localhost rfl, ?_⟩
    rw [← infer]
    rfl
  | none =>
    have kept : FileUrl.upperDrive segments = segments ∧
        inferPathConvention (file ⟨none, segments⟩) = some convention := by
      cases convention with
      | posix =>
        refine ⟨upperDrive_of_not_drive _ (notDrive rfl), ?_⟩
        simp only [inferPathConvention, isSome_none, Bool.false_eq_true, if_false]
        cases first : segments.find? (· ≠ []) with
        | none => rfl
        | some name => simp [notDrive rfl name first]
      | windows =>
        obtain ⟨drive, found, isDrive⟩ := drive_of_windows orig infer
        have upper : drive.modifyHead Char.toUpper = drive := by
          have same := find?_upperDrive orig
          rw [valid.upperDrive, found, map_some, if_pos isDrive] at same
          exact (some.inj same).symm
        have anchor : (FileUrl.nonEmptySegments ⟨none, orig⟩).take 1 = [drive] := by
          rw [take_one, FileUrl.nonEmptySegments, head?_filter, found]
          rfl
        rw [PathConvention.anchorDepth, anchor] at fixed
        have first : segments.find? (· ≠ []) = some drive := by
          rw [← head?_filter]
          obtain ⟨rest, split⟩ := fixed
          exact congrArg List.head? split.symm
        refine ⟨upperDrive_of_upper segments drive first upper, ?_⟩
        simp only [inferPathConvention, isSome_none, Bool.false_eq_true, if_false,
          first, isDrive, if_true]
    exact ⟨congrArg (FileUrl.mk none) kept.1, kept.2⟩

/-- Relative text that a second part can be appended as: no root and no drive of its own. -/
def IsContinuation (convention : PathConvention) (path : Text) : Prop :=
  path.contains '\x00' = false ∧ isRelativeText convention path = true ∧
    (convention = .windows →
      isWindowsRootRelative path = false ∧ isWindowsDriveRelative path = false)

theorem startNames_of_continuation (cont : IsContinuation convention path) :
    startNames url convention path = url.nonEmptySegments :=
  if_neg fun rootRelative => by
    rw [(cont.2.2 rootRelative.1).1] at rootRelative
    exact Bool.false_ne_true rootRelative.2

theorem withoutOwnDrive_of_continuation (convention : PathConvention)
    (path : Text) (cont : IsContinuation convention path) :
    withoutOwnDrive base convention path = .ok path :=
  if_neg fun driveRelative => by
    rw [(cont.2.2 driveRelative.1).2] at driveRelative
    exact Bool.false_ne_true driveRelative.2

theorem hasNoEmptyName_ofNames (host : Option Text) (names : List Text)
    (named : ∀ name ∈ names, name ≠ []) : HasNoEmptyName ⟨host, FileUrl.ofNames names⟩ := by
  unfold HasNoEmptyName FileUrl.ofNames
  split
  · simp
  next ne =>
    exact ⟨ne, fun seg mem => named seg (dropLast_subset names mem)⟩

theorem isSeparator_separator : convention.isSeparator convention.separator = true := by
  cases convention with
  | _ => rfl

theorem contains_append {first second : Text} {separator : Char} (notNull : separator ≠ '\x00')
    (firstNoNull : first.contains '\x00' = false) (secondNoNull : second.contains '\x00' = false) :
    (first ++ separator :: second).contains '\x00' = false := by
  simp only [contains_eq_mem, decide_eq_false_iff_not] at firstNoNull secondNoNull ⊢
  simp [firstNoNull, secondNoNull, Ne.symm notNull]

theorem join_append (first second left : Text)
    (plain : HasNoEmptyName url) (infer : inferPathConvention (file url) = some convention)
    (firstNoNull : first.contains '\x00' = false)
    (continues : ContinuesRelative convention first second)
    (cont : IsContinuation convention second)
    (gone : withoutOwnDrive (file url) convention first = .ok left)
    (joinedInferred : inferPathConvention
      (file ⟨url.host, joinedSegments lib url convention left⟩) = some convention)
    (isOk : tryFrom lib { url with segments := joinedSegments lib url convention left } =
      .ok (file ⟨url.host, joinedSegments lib url convention left⟩)) :
    join lib (file ⟨url.host, joinedSegments lib url convention left⟩) second =
      join lib (file url) (first ++ convention.separator :: second) := by
  obtain ⟨removedBoth, leftNonempty, single⟩ :=
    withoutOwnDrive_append continues gone
  have notNull : convention.separator ≠ '\x00' := by
    cases convention with
    | _ => decide
  have whole := join_relative lib infer
    (by simp) (contains_append notNull firstNoNull cont.1) continues.2.2
  rw [whole, removedBoth]
  have names := joinedSegments_eq lib url convention left plain
  have named := resolveNames_named lib convention.anchorDepth (convention.pathSegments left)
    (startNames url convention left) (startNames_named url convention left)
  have cut : convention.pathSegments (left ++ convention.separator :: second) =
      convention.pathSegments left ++ convention.pathSegments second :=
    splitOnP_append_cons left second (isSeparator_separator convention)
  have wholeSegments : joinedSegments lib url convention (left ++ convention.separator :: second) =
      FileUrl.ofNames (resolveNames lib convention.anchorDepth
        (resolveNames lib convention.anchorDepth (startNames url convention left)
        (convention.pathSegments left)) (convention.pathSegments second)) := by
    rw [joinedSegments_eq lib url convention _ plain,
      startNames_append url convention left second _ leftNonempty single, cut,
      resolveNames_append]
  by_cases empty : second = []
  · subst empty
    have same : joinedSegments lib url convention (left ++ [convention.separator]) =
        joinedSegments lib url convention left := by
      rw [wholeSegments, names]
      rfl
    simp only [Except.bind, same, isOk]
    rfl
  · have step := join_relative lib joinedInferred empty cont.1 cont.2.1
    rw [step, withoutOwnDrive_of_continuation _ convention second cont]
    simp only [Except.bind, wholeSegments]
    rw [joinedSegments_eq, startNames_of_continuation _ convention second cont]
    · rw [names, FileUrl.nonEmptySegments, FileUrl.filter_ofNames _ named]
    · rw [names]
      exact hasNoEmptyName_ofNames url.host _ named

/-- A successful join of relative text keeps the convention and the anchor of the base, and a
second join continues it. -/
theorem join_keeps_convention_and_composes (url : FileUrl) (convention : PathConvention)
    (first : Text) (joined : PathUri) (valid : IsPathUrl lib url)
    (inferred : inferPathConvention (file url) = some convention)
    (noNull : first.contains '\x00' = false) (relative : isRelativeText convention first = true)
    (joins : join lib (file url) first = .ok joined)
    (notDrive : convention = .posix → ∀ name,
      (joinedSegments lib url convention first).find? (· ≠ []) = some name →
      isWindowsDriveUriSegment name = false) :
    inferPathConvention joined = some convention ∧
      (∃ joinedUrl, joined = file joinedUrl ∧ joinedUrl.host = url.host ∧
        url.nonEmptySegments.take convention.anchorDepth <+: joinedUrl.nonEmptySegments) ∧
      ∀ second, HasNoEmptyName url → ContinuesRelative convention first second →
        IsContinuation convention second →
        join lib joined second =
          join lib (file url) (first ++ convention.separator :: second) := by
  by_cases empty : first = []
  · subst empty
    have same : file url = joined := Except.ok.inj joins
    subst same
    refine ⟨inferred, ⟨url, rfl, rfl, take_prefix ..⟩, ?_⟩
    intro second _ continues
    exact absurd rfl continues.1
  · rw [join_relative lib inferred empty noNull relative] at joins
    cases removed : withoutOwnDrive (file url) convention first with
    | error reason =>
      rw [removed] at joins
      cases joins
    | ok left =>
      rw [removed] at joins
      have accepted : tryFrom lib
        { url with segments := joinedSegments lib url convention left } = .ok joined := joins
      have anchored := joinedSegments_anchored lib url convention left
      have leftNotDrive : convention = .posix → ∀ name,
          (joinedSegments lib url convention left).find? (· ≠ []) = some name →
          isWindowsDriveUriSegment name = false := by
        rintro rfl
        have same : first = left := Except.ok.inj removed
        rw [← same]
        exact notDrive rfl
      obtain ⟨normalized, joinedInferred⟩ :=
        joined_normalized valid inferred anchored leftNotDrive
      have result := tryFrom_eq_ok lib _ _ accepted
      rw [normalized] at result
      subst result
      refine ⟨joinedInferred, ⟨_, rfl, rfl, anchored⟩, ?_⟩
      intro second plain continues continuation
      exact join_append lib url convention first second left plain inferred noNull continues
        continuation removed joinedInferred accepted

theorem join_in_two_steps :
    join PercentEncoding.urlLibrary (file ⟨none, ["w".toList, "a%20b".toList]⟩)
        "../c".toList = .ok (file ⟨none, ["w".toList, "c".toList]⟩) ∧
      inferPathConvention (file ⟨none, ["w".toList, "c".toList]⟩) = some .posix ∧
      join PercentEncoding.urlLibrary (file ⟨none, ["w".toList, "c".toList]⟩) "d e".toList =
        join PercentEncoding.urlLibrary (file ⟨none, ["w".toList, "a%20b".toList]⟩)
          ("../c".toList ++ PathConvention.posix.separator :: "d e".toList) := by
  have joins : join PercentEncoding.urlLibrary (file ⟨none, ["w".toList, "a%20b".toList]⟩)
      "../c".toList = .ok (file ⟨none, ["w".toList, "c".toList]⟩) := by decide
  have kept := join_keeps_convention_and_composes PercentEncoding.urlLibrary
    ⟨none, ["w".toList, "a%20b".toList]⟩ .posix "../c".toList _ (by unfold IsPathUrl; decide)
    (by decide) (by decide) (by decide) joins
    (fun _ name found => by
      have first : some "w".toList = some name := found
      cases first
      decide)
  exact ⟨joins, kept.1, kept.2.2 "d e".toList ⟨by decide, by decide⟩
    ⟨by decide, by decide, by decide⟩ ⟨by decide, by decide, fun windows => by cases windows⟩⟩

/-- Text relative to the root of a drive starts there, not where the first part leads to, and
empty text before a separator makes the second part absolute. -/
theorem root_relative_text_does_not_continue :
    (join PercentEncoding.urlLibrary (file ⟨none, ["C:".toList, "w".toList]⟩)
        "a".toList).bind (join PercentEncoding.urlLibrary · "\\x".toList) =
        .ok (file ⟨none, ["C:".toList, "x".toList]⟩) ∧
      join PercentEncoding.urlLibrary (file ⟨none, ["C:".toList, "w".toList]⟩)
        "a\\\\x".toList =
        .ok (file ⟨none, ["C:".toList, "w".toList, "a".toList, "x".toList]⟩) ∧
      (join PercentEncoding.urlLibrary (file ⟨none, ["w".toList]⟩) []).bind
          (join PercentEncoding.urlLibrary · "x".toList) =
        .ok (file ⟨none, ["w".toList, "x".toList]⟩) ∧
      join PercentEncoding.urlLibrary (file ⟨none, ["w".toList]⟩) "/x".toList =
        .ok (file ⟨none, ["x".toList]⟩) := by
  decide

end PathUri

end CodexFormal.Uri
