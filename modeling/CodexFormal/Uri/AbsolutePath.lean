import CodexFormal.Uri.Descendant

/-!
# Absolute paths of the host

An absolute path is the list of its names from the root of the file system on.
Text is resolved against such a path name by name.  A path URI denotes an
absolute path if it is located at the names of the path; the URI made from a
path denotes it unless it is a fallback, and joining text to that URI agrees
with resolving the text against the path.
-/

set_option autoImplicit false

namespace CodexFormal.Uri

open List FileUrl PathConvention

open Patch (Text)

/-- A name that normalization keeps. -/
def isComponent (name : Text) : Bool :=
  !name.isEmpty && name != ['.'] && name != ['.', '.'] && !name.contains '/'

structure AbsolutePathBuf where
  names : List Text
  normal : names.all isComponent = true
deriving DecidableEq, Repr

namespace AbsolutePathBuf

def root : AbsolutePathBuf := ⟨[], rfl⟩

variable (path : AbsolutePathBuf)

def pop : AbsolutePathBuf where
  names := path.names.dropLast
  normal := by
    rw [List.all_eq_true]
    exact fun name member => List.all_eq_true.mp path.normal name (List.dropLast_subset _ member)

def parent : Option AbsolutePathBuf :=
  if path.names = [] then none else some path.pop

/-- The path of the first names. -/
def take (count : Nat) : AbsolutePathBuf where
  names := path.names.take count
  normal := by
    rw [List.all_eq_true]
    exact fun name member => List.all_eq_true.mp path.normal name (List.mem_of_mem_take member)

/-- The path and the paths above it, from the path up to the root. -/
def ancestors : List AbsolutePathBuf :=
  (List.range (path.names.length + 1)).reverse.map path.take

/-- One component of text; the parent of the root is the root. -/
def push (component : Text) : AbsolutePathBuf :=
  if kept : isComponent component = true then
    ⟨path.names ++ [component], by
      rw [List.all_append, path.normal, List.all_cons, kept, List.all_nil]
      rfl⟩
  else if component = ['.', '.'] then path.pop
  else path

def absolutizeFrom (text : Text) (base : AbsolutePathBuf) : AbsolutePathBuf :=
  (PathConvention.posix.pathSegments text).foldl push
    (if text.head? = some '/' then root else base)

def toText : Text := '/' :: List.intercalate ['/'] path.names

def startsWith (path base : AbsolutePathBuf) : Bool := base.names.isPrefixOf path.names

/-- The names that follow those of the base. -/
def stripPrefix (path base : AbsolutePathBuf) : Option (List Text) :=
  path.names.dropPrefix? base.names

theorem ext_names {first second : AbsolutePathBuf} (same : first.names = second.names) :
    first = second := by
  cases first
  cases second
  cases same
  rfl

theorem startsWith_iff (path base : AbsolutePathBuf) :
    path.startsWith base = true ↔ base.names <+: path.names :=
  isPrefixOf_iff_prefix

theorem startsWith_refl : path.startsWith path = true :=
  (startsWith_iff path path).mpr prefix_rfl

theorem startsWith_trans {path mid base : AbsolutePathBuf}
    (lower : path.startsWith mid = true) (upper : mid.startsWith base = true) :
    path.startsWith base = true := by
  rw [startsWith_iff] at *
  exact upper.trans lower

theorem length_le_of_startsWith {path base : AbsolutePathBuf}
    (starts : path.startsWith base = true) : base.names.length ≤ path.names.length :=
  ((startsWith_iff path base).mp starts).length_le

theorem startsWith_of_length_le {path first second : AbsolutePathBuf}
    (belowFirst : path.startsWith first = true) (belowSecond : path.startsWith second = true)
    (short : first.names.length ≤ second.names.length) : second.startsWith first = true := by
  rw [startsWith_iff] at *
  exact prefix_of_prefix_length_le belowFirst belowSecond short

theorem eq_of_startsWith {path base : AbsolutePathBuf} (starts : path.startsWith base = true)
    (asLong : path.names.length ≤ base.names.length) : path = base := by
  rw [startsWith_iff] at starts
  exact ext_names (starts.eq_of_length (Nat.le_antisymm starts.length_le asLong)).symm

theorem isComponent_iff (name : Text) :
    isComponent name = true ↔ name ≠ [] ∧ name ≠ ['.'] ∧ name ≠ ['.', '.'] ∧ '/' ∉ name := by
  simp [isComponent, and_assoc]

theorem isComponent_of_mem (name : Text) (mem : name ∈ path.names) :
    name ≠ [] ∧ name ≠ ['.'] ∧ name ≠ ['.', '.'] ∧ '/' ∉ name :=
  (isComponent_iff name).mp (all_eq_true.mp path.normal name mem)

variable (component : Text)

theorem names_push_of_component (kept : isComponent component = true) :
    (path.push component).names = path.names ++ [component] := by
  rw [push, dif_pos kept]

theorem push_of_ignored
    (ignored : component = [] ∨ component = ['.']) : path.push component = path := by
  have dropped : ¬ isComponent component = true := by
    rw [isComponent_iff]
    rcases ignored with rfl | rfl
    · exact fun kept => kept.1 rfl
    · exact fun kept => kept.2.1 rfl
  rw [push, dif_neg dropped, if_neg]
  rcases ignored with rfl | rfl
  · exact fun same => by cases same
  · exact fun same => by cases same

theorem pop_of_root (atRoot : ¬ 0 < path.names.length) : path.pop = path := by
  rw [Nat.not_lt, Nat.le_zero, length_eq_zero_iff] at atRoot
  refine ext_names ?_
  change path.names.dropLast = path.names
  rw [atRoot]
  rfl

theorem push_parent : path.push ['.', '.'] = path.pop := by
  rw [push, dif_neg (by decide), if_pos rfl]

theorem noSlash_of_mem_pathSegments (text segment : Text)
    (mem : segment ∈ posix.pathSegments text) : '/' ∉ segment := by
  unfold pathSegments at mem
  induction text generalizing segment with
  | nil =>
    rw [splitOnP_nil, mem_singleton] at mem
    rw [mem]
    exact not_mem_nil
  | cons c rest ih =>
    rw [splitOnP_cons_eq_if_modifyHead] at mem
    split at mem
    · rcases mem_cons.mp mem with rfl | mem
      · exact not_mem_nil
      · exact ih segment mem
    next notSlash =>
      cases split : rest.splitOnP posix.isSeparator with
      | nil => exact absurd split (splitOnP_ne_nil _ _)
      | cons first more =>
        rw [split] at ih
        rw [split, modifyHead_cons] at mem
        rcases mem_cons.mp mem with rfl | mem
        · rw [mem_cons, not_or]
          refine ⟨fun slash => notSlash ?_, ih first (mem_cons_self ..)⟩
          rw [← slash]
          rfl
        · exact ih segment (mem_cons_of_mem first mem)

/-! ## The names of text -/

theorem isComponent_of_noSlash (noSlash : '/' ∉ component)
    (real : ¬ (component = [] ∨ component = ['.'])) (notParent : component ≠ ['.', '.']) :
    isComponent component = true := by
  rw [not_or] at real
  exact (isComponent_iff component).mpr ⟨real.1, real.2, notParent, noSlash⟩

/-- What `push` does with a component of text, by the three kinds of components. -/
theorem push_cases (noSlash : '/' ∉ component) :
    ((component = [] ∨ component = ['.']) ∧ path.push component = path) ∨
    (component = ['.', '.'] ∧ path.push component = path.pop) ∨
    (¬ (component = [] ∨ component = ['.']) ∧ component ≠ ['.', '.'] ∧
    (path.push component).names = path.names ++ [component]) := by
  by_cases ignored : component = [] ∨ component = ['.']
  · exact .inl ⟨ignored, push_of_ignored path component ignored⟩
  · by_cases isParent : component = ['.', '.']
    · subst isParent
      exact .inr (.inl ⟨rfl, push_parent path⟩)
    · exact .inr (.inr ⟨ignored, isParent, names_push_of_component path component
        (isComponent_of_noSlash component noSlash ignored isParent)⟩)

theorem names_foldl_push (components : List Text)
    (noSlash : ∀ component ∈ components, '/' ∉ component) (noParents : ['.', '.'] ∉ components) :
    (components.foldl push path).names =
    path.names ++ components.filter fun component => component ≠ [] ∧ component ≠ ['.'] := by
  induction components generalizing path with
  | nil => simp
  | cons component rest ih =>
    rw [mem_cons, not_or] at noParents
    rw [foldl_cons, ih _ (fun other mem => noSlash other (mem_cons_of_mem _ mem)) noParents.2]
    rcases push_cases path component (noSlash component (mem_cons_self ..)) with
      ⟨ignored, pushed⟩ | ⟨isParent, _⟩ | ⟨real, _, pushed⟩
    · rw [pushed, filter_cons_of_neg]
      simpa [Classical.or_iff_not_imp_left] using ignored
    · exact absurd isParent.symm noParents.1
    · rw [pushed, filter_cons_of_pos (by simpa using real), append_assoc]
      rfl

/-- The names and the steps to a parent that absolute text consists of. -/
def pathComponents (text : Text) : List Text :=
  (PathConvention.posix.pathSegments text).filter fun component =>
    component ≠ [] ∧ component ≠ ['.']

theorem names_absolutizeFrom (text : Text) (base : AbsolutePathBuf)
    (abs : text.head? = some '/') (noParents : ['.', '.'] ∉ pathComponents text) :
    (absolutizeFrom text base).names = pathComponents text := by
  have segmentsNoParents : ['.', '.'] ∉ posix.pathSegments text := fun mem =>
    noParents (mem_filter.mpr ⟨mem, by decide⟩)
  rw [absolutizeFrom, if_pos abs,
    names_foldl_push _ _ (noSlash_of_mem_pathSegments text) segmentsNoParents]
  rfl

theorem filter_components :
    path.names.filter (fun component => component ≠ [] ∧ component ≠ ['.']) = path.names := by
  rw [filter_eq_self]
  intro name mem
  obtain ⟨named, notDot, _⟩ := path.isComponent_of_mem name mem
  exact decide_eq_true ⟨named, notDot⟩

theorem pathComponents_toText : pathComponents path.toText = path.names := by
  have slash : posix.isSeparator '/' = true := rfl
  rw [pathComponents, toText, pathSegments, splitOnP_cons_eq_if_modifyHead,
    if_pos slash, filter_cons_of_neg (by decide)]
  by_cases atRoot : path.names = []
  · rw [atRoot]
    rfl
  · have split : (List.intercalate ['/'] path.names).splitOnP posix.isSeparator =
      path.names := splitOn_intercalate '/'
      (fun name mem => (path.isComponent_of_mem name mem).2.2.2) atRoot
    rw [split, filter_components]

theorem absolutizeFrom_toText (path base : AbsolutePathBuf) :
    absolutizeFrom path.toText base = path := by
  refine ext_names ?_
  have components := pathComponents_toText path
  rw [names_absolutizeFrom path.toText base rfl, components]
  rw [components]
  exact fun mem => (path.isComponent_of_mem _ mem).2.2.1 rfl

end AbsolutePathBuf

namespace PathUri

variable (lib : UrlLibrary)

open AbsolutePathBuf (push_cases)

variable (path : AbsolutePathBuf)

theorem resolveComponent_push (component : Text) (noSlash : '/' ∉ component) :
    resolveComponent lib 0 (path.names.map lib.encodeSegment) component =
    (path.push component).names.map lib.encodeSegment := by
  unfold resolveComponent
  rcases push_cases path component noSlash with ⟨ignored, pushed⟩ | ⟨isParent, pushed⟩ |
    ⟨real, notParent, pushed⟩
  · rw [if_pos ignored, pushed]
  · subst isParent
    rw [if_neg (by simp), if_pos rfl, pushed, length_map]
    split
    · rw [AbsolutePathBuf.pop, map_dropLast]
    next atRoot =>
      rw [path.pop_of_root atRoot]
  · rw [if_neg real, if_neg notParent, pushed, map_append]
    rfl

variable (components : List Text)

theorem resolveNames_push (noSlash : ∀ component ∈ components, '/' ∉ component) :
    resolveNames lib 0 (path.names.map lib.encodeSegment) components =
    (components.foldl .push path).names.map lib.encodeSegment := by
  unfold resolveNames
  induction components generalizing path with
  | nil => rfl
  | cons component rest ih =>
    rw [foldl_cons, foldl_cons,
      resolveComponent_push lib path component (noSlash component (mem_cons_self ..))]
    exact ih _ fun other mem => noSlash other (mem_cons_of_mem _ mem)

theorem normalizeSegment_push (trailing : Bool) (component : Text) (noSlash : '/' ∉ component) :
    ∃ after, normalizeSegment 0 ⟨path.names, path.names.length, trailing⟩ component =
    ⟨(path.push component).names, (path.push component).names.length, after⟩ := by
  unfold normalizeSegment
  dsimp only
  rcases push_cases path component noSlash with ⟨ignored, pushed⟩ | ⟨isParent, pushed⟩ |
    ⟨real, notParent, pushed⟩
  · rw [pushed]
    rcases ignored with rfl | rfl
    · exact ⟨true, if_pos rfl⟩
    · exact ⟨false, rfl⟩
  · subst isParent
    refine ⟨false, ?_⟩
    rw [if_neg (by simp), if_neg (by simp), if_pos rfl, pushed]
    split
    · rw [AbsolutePathBuf.pop, length_dropLast]
    next atRoot =>
      rw [path.pop_of_root atRoot]
  · rw [not_or] at real
    refine ⟨false, ?_⟩
    rw [if_neg real.1, if_neg real.2, if_neg notParent, pushed, length_append]
    rfl

theorem foldl_normalizeSegment_push (trailing : Bool)
    (components : List Text) (noSlash : ∀ component ∈ components, '/' ∉ component) :
    ∃ after, components.foldl (normalizeSegment 0) ⟨path.names, path.names.length, trailing⟩ =
    ⟨(components.foldl .push path).names, (components.foldl .push path).names.length, after⟩ := by
  induction components generalizing path trailing with
  | nil => exact ⟨trailing, rfl⟩
  | cons component rest ih =>
    obtain ⟨after, step⟩ := normalizeSegment_push path trailing component
      (noSlash component (mem_cons_self ..))
    rw [foldl_cons, foldl_cons, step]
    exact ih _ after fun other mem => noSlash other (mem_cons_of_mem _ mem)

/-! ## URIs that denote a path -/

/-- A URI of the source that is located at the names of the path. -/
def Denotes (uri : PathUri) (path : AbsolutePathBuf) : Prop :=
  IsValid lib uri ∧ location lib uri = some ⟨.posix, none, path.names⟩

variable (segments : List Text) (uri : PathUri)

theorem tryFrom_posix (isOk : tryFrom lib ⟨none, segments⟩ = .ok uri)
    (posix : inferPathConvention uri = some .posix) :
    uri = file ⟨none, segments⟩ ∧ IsPathUrl lib ⟨none, segments⟩ := by
  have made : uri = file ⟨none, upperDrive segments⟩ := tryFrom_eq_ok lib _ uri isOk
  subst made
  rw [inferPathConvention_upperDrive] at posix
  rw [upperDrive_of_posix segments posix] at isOk ⊢
  exact ⟨rfl, isOk⟩

variable {lib segments} in
theorem denotes_of_segments {path : AbsolutePathBuf} (valid : IsPathUrl lib ⟨none, segments⟩)
    (posix : inferPathConvention (file ⟨none, segments⟩) = some .posix)
    (named : segments.filter (· ≠ []) = path.names.map lib.encodeSegment) :
    Denotes lib (file ⟨none, segments⟩) path := by
  refine ⟨valid, ?_⟩
  have plain : ¬ ((path.names.map lib.encodeSegment).any fun segment =>
      (lib.decodeSegment segment).any PathConvention.posix.isSeparator) = true := by
    simp only [any_map, any_eq_true, Function.comp_apply, lib.decode_encode, not_exists, not_and]
    intro name mem c isIn separator
    exact (path.isComponent_of_mem name mem).2.2.2 (beq_iff_eq.mp separator ▸ isIn)
  simp only [location, posix, Option.bind_some, containmentPathSegments, FileUrl.nonEmptySegments,
    named]
  rw [if_neg plain, Option.map_some, map_map]
  congr 2
  simp [segmentName, Function.comp_def, lib.decode_encode]

theorem filter_encoded :
    (path.names.map lib.encodeSegment).filter (· ≠ []) = path.names.map lib.encodeSegment := by
  rw [filter_eq_self]
  intro segment mem
  obtain ⟨name, nameMem, rfl⟩ := mem_map.mp mem
  have named := (path.isComponent_of_mem name nameMem).1
  simpa [encodeSegment_eq_nil] using named

theorem encoded_named : ∀ segment ∈ path.names.map lib.encodeSegment, segment ≠ [] := by
  intro segment mem
  rw [← filter_encoded lib path] at mem
  simpa using (mem_filter.mp mem).2

def fromAbsPath (path : AbsolutePathBuf) : PathUri :=
  match tryFrom lib ⟨none, FileUrl.ofNames (path.names.map lib.encodeSegment)⟩ with
  | .ok uri =>
    if !hostIsEmpty uri && inferPathConvention uri == some .posix then uri
    else fallback (utf8Bytes path.toText)
  | .error _ => fallback (utf8Bytes path.toText)

theorem fromAbsPath_eq (plain : isFallback (fromAbsPath lib path) = false) :
    fromAbsPath lib path = file ⟨none, ofNames (path.names.map lib.encodeSegment)⟩ ∧
    IsPathUrl lib ⟨none, ofNames (path.names.map lib.encodeSegment)⟩ ∧
    inferPathConvention (fromAbsPath lib path) = some .posix := by
  unfold fromAbsPath at plain ⊢
  cases isOk : tryFrom lib ⟨none, ofNames (path.names.map lib.encodeSegment)⟩ with
  | error error =>
    simp only [isOk] at plain
    cases plain
  | ok uri =>
    simp only [isOk] at plain ⊢
    split
    next kept =>
      rw [Bool.and_eq_true, beq_iff_eq] at kept
      obtain ⟨rfl, valid⟩ := tryFrom_posix lib _ uri isOk kept.2
      exact ⟨rfl, valid, kept.2⟩
    next rejected =>
      rw [if_neg rejected] at plain
      cases plain

variable {lib path} in
theorem fromAbsPath_denotes (plain : isFallback (fromAbsPath lib path) = false) :
    Denotes lib (fromAbsPath lib path) path := by
  obtain ⟨made, valid, posix⟩ := fromAbsPath_eq lib path plain
  rw [made] at posix ⊢
  exact denotes_of_segments valid posix (filter_ofNames _ (encoded_named lib path))

variable (names : List Text)

theorem inferPathConvention_ofNames (named : ∀ name ∈ names, name ≠ []) :
    inferPathConvention (file ⟨none, ofNames names⟩) = match names.head? with
      | some name => if isWindowsDriveUriSegment name then some .windows else some .posix
      | none => some .posix := by
  simp only [inferPathConvention, Option.isSome_none, Bool.false_eq_true, if_false,
    ← head?_filter, filter_ofNames names named]
  cases names.head? with
  | _ => rfl

theorem noNull_of_tryFrom (url : FileUrl) (uri : PathUri) (isOk : tryFrom lib url = .ok uri) :
    ∀ segment ∈ url.segments, '\x00' ∉ lib.decodeSegment segment := by
  intro segment mem null
  have rejected : (url.segments.any fun segment =>
      (lib.decodeSegment segment).contains '\x00') = true :=
    any_eq_true.mpr ⟨segment, mem, contains_iff_mem.mpr null⟩
  rw [tryFrom, if_pos rejected] at isOk
  cases isOk

theorem fromAbsPath_ordinary_of_startsWith (path base : AbsolutePathBuf)
    (below : path.startsWith base = true) (plain : isFallback (fromAbsPath lib path) = false) :
    isFallback (fromAbsPath lib base) = false := by
  obtain ⟨made, valid, posix⟩ := fromAbsPath_eq lib path plain
  have front := (AbsolutePathBuf.startsWith_iff path base).mp below
  have noNull : ¬ ((ofNames (base.names.map lib.encodeSegment)).any fun segment =>
      (lib.decodeSegment segment).contains '\x00') = true := by
    intro hasNull
    obtain ⟨segment, mem, null⟩ := any_eq_true.mp hasNull
    unfold ofNames at mem
    split at mem
    · rw [mem_singleton.mp mem, (lib.decode_eq_nil []).mpr rfl] at null
      cases null
    · obtain ⟨name, nameMem, rfl⟩ := mem_map.mp mem
      have inPath := mem_map_of_mem (front.subset nameMem) (f := lib.encodeSegment)
      have named : path.names.map lib.encodeSegment ≠ [] := ne_nil_of_mem inPath
      have inSegments : lib.encodeSegment name ∈ ofNames (path.names.map lib.encodeSegment) := by
        rw [ofNames, if_neg named]
        exact inPath
      exact noNull_of_tryFrom lib _ _ valid _ inSegments (contains_iff_mem.mp null)
  have basePosix : inferPathConvention
      (file ⟨none, ofNames (base.names.map lib.encodeSegment)⟩) = some .posix := by
    rw [made, inferPathConvention_ofNames _ (encoded_named lib path)] at posix
    rw [inferPathConvention_ofNames _ (encoded_named lib base)]
    cases names : base.names with
    | nil => rfl
    | cons first rest =>
      obtain ⟨more, split⟩ := front
      rw [← split, names] at posix
      exact posix
  have isOk : tryFrom lib ⟨none, ofNames (base.names.map lib.encodeSegment)⟩ =
      .ok (file ⟨none, upperDrive (ofNames (base.names.map lib.encodeSegment))⟩) :=
    if_neg noNull
  have kept : (!hostIsEmpty (file ⟨none,
      upperDrive (ofNames (base.names.map lib.encodeSegment))⟩) &&
      inferPathConvention (file ⟨none, upperDrive (ofNames (base.names.map lib.encodeSegment))⟩) ==
        some .posix) = true := by
    rw [inferPathConvention_upperDrive, basePosix]
    rfl
  simp only [fromAbsPath, isOk]
  rw [if_pos kept]
  rfl

/-! ## Absolute text -/

theorem names_foldl_push (start segments : List Text) :
    FileUrl.names (segments.foldl FileUrl.push start) =
    FileUrl.names start ++ FileUrl.names segments := by
  induction segments generalizing start with
  | nil => simp [FileUrl.names]
  | cons segment rest ih =>
    have pushed : FileUrl.names (FileUrl.push start segment) =
        FileUrl.names start ++ FileUrl.names [segment] := by
      unfold FileUrl.push
      split
      next atRoot =>
        subst atRoot
        rfl
      · exact filter_append ..
    rw [foldl_cons, ih, pushed, append_assoc, FileUrl.names, FileUrl.names,
      FileUrl.names, ← filter_append, singleton_append]
    rfl

section

variable (noSlash : ∀ segment ∈ segments, '/' ∉ segment)

include noSlash

theorem names_normalizedSegments :
    FileUrl.names ((normalizedSegments .posix none segments).map lib.encodeSegment) =
    (segments.foldl AbsolutePathBuf.push AbsolutePathBuf.root).names.map lib.encodeSegment := by
  obtain ⟨after, norm⟩ :=
    foldl_normalizeSegment_push AbsolutePathBuf.root false segments noSlash
  have start : segments.foldl (normalizeSegment posix.anchorDepth) ⟨[], 0, false⟩ =
    _ := norm
  generalize segments.foldl AbsolutePathBuf.push AbsolutePathBuf.root = path at start ⊢
  simp only [normalizedSegments, start]
  split
  · rw [map_append, FileUrl.names, filter_append, filter_encoded, map_cons,
      (encodeSegment_eq_nil lib []).mpr rfl]
    simp
  · exact filter_encoded lib path

theorem pathUriFromSegments_denotes (made : pathUriFromSegments lib .posix none segments = some uri)
    (posix : inferPathConvention uri = some .posix) :
    Denotes lib uri (segments.foldl AbsolutePathBuf.push AbsolutePathBuf.root) := by
  have isOk : (tryFrom lib ⟨none, ((normalizedSegments .posix none segments).map
    lib.encodeSegment).foldl FileUrl.push [[]]⟩).toOption = some uri := made
  cases res : tryFrom lib ⟨none, ((normalizedSegments .posix none segments).map
    lib.encodeSegment).foldl FileUrl.push [[]]⟩ with
  | error error =>
    rw [res] at isOk
    cases isOk
  | ok other =>
    rw [res] at isOk
    cases isOk
    obtain ⟨rfl, valid⟩ := tryFrom_posix lib _ _ res posix
    refine denotes_of_segments valid posix ?_
    rw [← names_normalizedSegments lib segments noSlash]
    exact names_foldl_push [[]] _

omit noSlash in
theorem mem_foldl_push (name : Text)
    (mem : name ∈ (components.foldl AbsolutePathBuf.push path).names) :
    name ∈ path.names ∨ name ∈ components := by
  induction components generalizing path with
  | nil => exact .inl mem
  | cons component rest ih =>
    rcases ih (path.push component) mem with earlier | later
    · unfold AbsolutePathBuf.push at earlier
      split at earlier
      · rcases mem_append.mp earlier with pre | this
        · exact .inl pre
        · exact .inr (mem_singleton.mp this ▸ mem_cons_self ..)
      · split at earlier
        · exact .inl (dropLast_subset _ earlier)
        · exact .inl earlier
    · exact .inr (mem_cons_of_mem component later)

theorem pathUriFromSegments_ne_none (noNull : ∀ segment ∈ segments, '\x00' ∉ segment) :
    pathUriFromSegments lib .posix none segments ≠ none := by
  intro failed
  have rejected : (tryFrom lib ⟨none, ((normalizedSegments .posix none segments).map
    lib.encodeSegment).foldl FileUrl.push [[]]⟩).toOption = none := failed
  unfold tryFrom at rejected
  split at rejected
  next hasNull =>
    obtain ⟨segment, mem, null⟩ := any_eq_true.mp hasNull
    have named : segment ≠ [] := by
      rintro rfl
      rw [(lib.decode_eq_nil []).mpr rfl] at null
      cases null
    have kept : segment ∈ FileUrl.names (((normalizedSegments .posix none segments).map
        lib.encodeSegment).foldl FileUrl.push [[]]) :=
      mem_filter.mpr ⟨mem, by simpa using named⟩
    rw [names_foldl_push, names_normalizedSegments lib segments noSlash] at kept
    obtain ⟨name, nameMem, rfl⟩ := mem_map.mp kept
    rw [lib.decode_encode, contains_iff_mem] at null
    rcases mem_foldl_push AbsolutePathBuf.root segments name nameMem with atRoot | component
    · cases atRoot
    · exact noNull name component null
  · cases rejected

end

theorem absolutizeFrom_slash (rest : Text) (base : AbsolutePathBuf) :
    AbsolutePathBuf.absolutizeFrom ('/' :: rest) base =
    (posix.pathSegments rest).foldl AbsolutePathBuf.push AbsolutePathBuf.root := by
  have segmentsOf : posix.pathSegments ('/' :: rest) = [] :: posix.pathSegments rest := by
    have slash : posix.isSeparator '/' = true := rfl
    rw [pathSegments, splitOnP_cons_eq_if_modifyHead, if_pos slash]
    rfl
  rw [AbsolutePathBuf.absolutizeFrom, segmentsOf, foldl_cons, head?_cons, if_pos rfl,
    AbsolutePathBuf.push_of_ignored _ _ (.inl rfl)]

variable (text : Text)

theorem fromAbsoluteNativePath_denotes (uri : PathUri) (base : AbsolutePathBuf)
    (abs : fromAbsoluteNativePath lib text .posix = some uri) (plain : isFallback uri = false) :
    Denotes lib uri (AbsolutePathBuf.absolutizeFrom text base) := by
  obtain ⟨parsed, parses, kept⟩ := Option.map_eq_some_iff.mp abs
  split at kept
  next checked =>
    subst kept
    rw [Bool.and_eq_true, beq_iff_eq] at checked
    unfold parseNativePath parsePosixPath at parses
    dsimp only at parses
    split at parses
    next rest =>
      split at parses
      · cases parses
        cases plain
      · rw [absolutizeFrom_slash]
        exact pathUriFromSegments_denotes lib _ parsed
          (AbsolutePathBuf.noSlash_of_mem_pathSegments rest) parses checked.2
    · cases parses
  · subst kept
    cases plain

theorem head_of_fromAbsoluteNativePath (noNull : ¬ text.contains '\x00' = true)
    (relative : fromAbsoluteNativePath lib text .posix = none) : text.head? ≠ some '/' := by
  intro slash
  cases text with
  | nil => cases slash
  | cons c rest =>
    cases slash
    have parses : (if rest.contains '\x00' then some (fallback (utf8Bytes ('/' :: rest)))
        else pathUriFromSegments lib .posix none (posix.pathSegments rest)) =
        none := Option.map_eq_none_iff.mp relative
    have restNoNull : '\x00' ∉ rest := fun isIn =>
      noNull (contains_iff_mem.mpr (mem_cons_of_mem _ isIn))
    rw [if_neg (fun null => restNoNull (contains_iff_mem.mp null))] at parses
    exact pathUriFromSegments_ne_none lib _ (AbsolutePathBuf.noSlash_of_mem_pathSegments rest)
      (fun segment mem isIn =>
      restNoNull (mem_of_mem_splitOnP _ rest segment mem _ isIn)) parses

/-! ## Joining text -/

theorem join_denotes (base : AbsolutePathBuf) (text : Text) (uri : PathUri)
    (plain : isFallback (fromAbsPath lib base) = false)
    (joined : join lib (fromAbsPath lib base) text = .ok uri)
    (posix : inferPathConvention uri = some .posix) (isFile : isFallback uri = false) :
    Denotes lib uri (.absolutizeFrom text base) := by
  have baseDenotes := fromAbsPath_denotes plain
  obtain ⟨made, valid, basePosix⟩ := fromAbsPath_eq lib base plain
  unfold join at joined
  split at joined
  · cases joined
  next noNull =>
    split at joined
    next empty =>
      cases joined
      subst empty
      exact baseDenotes
    next ne =>
      rw [basePosix] at joined
      dsimp only at joined
      cases abs : fromAbsoluteNativePath lib text .posix with
      | some other =>
        rw [abs] at joined
        cases joined
        exact fromAbsoluteNativePath_denotes lib text uri base abs isFile
      | none =>
        have relative := head_of_fromAbsoluteNativePath lib text noNull abs
        rw [abs, made] at joined
        have isOk : tryFrom lib ⟨none, joinedSegments lib _ .posix text⟩ = .ok uri := joined
        have start : startNames ⟨none, ofNames (base.names.map lib.encodeSegment)⟩ .posix
            text = base.names.map lib.encodeSegment :=
          filter_ofNames _ (encoded_named lib base)
        have resolved := resolveNames_push lib base _
          (AbsolutePathBuf.noSlash_of_mem_pathSegments text)
        rw [joinedSegments_eq lib _ _ _
          (hasNoEmptyName_ofNames none _ (encoded_named lib base)), start,
          anchorDepth, resolved] at isOk
        rw [AbsolutePathBuf.absolutizeFrom, if_neg relative]
        obtain ⟨rfl, joinedValid⟩ := tryFrom_posix lib _ _ isOk posix
        exact denotes_of_segments joinedValid posix (filter_ofNames _ (encoded_named lib _))

/-! ## Native paths of URIs -/

def toAbsPath (uri : PathUri) : Option AbsolutePathBuf :=
  if inferPathConvention uri ≠ some .posix then none
  else match uri with
    | fallback bytes =>
      match ByteArray.utf8Decode? ⟨bytes.toArray⟩ with
      | some chars =>
        let path := AbsolutePathBuf.absolutizeFrom chars.toList AbsolutePathBuf.root
        if fromAbsPath lib path = uri then some path else none
      | none => none
    | file url =>
      if url.host.isSome then none
      else some (AbsolutePathBuf.absolutizeFrom
        (url.segments.flatMap fun segment => '/' :: lib.decodeSegment segment)
        AbsolutePathBuf.root)

/-- The path parser of the URL library resolves the dots of a path, however they are encoded. -/
def HasNoDots : PathUri → Prop
  | file url => ∀ segment ∈ url.segments,
      lib.decodeSegment segment ≠ ['.'] ∧ lib.decodeSegment segment ≠ ['.', '.']
  | fallback _ => True

instance (uri : PathUri) : Decidable (HasNoDots lib uri) :=
  match uri with
  | file url => inferInstanceAs (Decidable (∀ segment ∈ url.segments, _ ∧ _))
  | fallback _ => inferInstanceAs (Decidable True)

theorem intercalate_cons_eq_flatMap (first : Text) (rest : List Text) :
    List.intercalate ['/'] (first :: rest) = first ++ rest.flatMap ('/' :: ·) := by
  induction rest generalizing first with
  | nil => simp
  | cons second more ih =>
    rw [intercalate_cons_cons, ih, flatMap_cons]
    simp

theorem pathSegments_flatMap (noSlash : ∀ segment ∈ segments, '/' ∉ segment) :
    posix.pathSegments (segments.flatMap ('/' :: ·)) = [] :: segments := by
  have joined : List.intercalate ['/'] ([] :: segments) = segments.flatMap ('/' :: ·) :=
    intercalate_cons_eq_flatMap [] segments
  rw [← joined]
  refine splitOn_intercalate '/' ?_ (cons_ne_nil _ _)
  intro segment mem
  rcases mem_cons.mp mem with rfl | mem
  · exact not_mem_nil
  · exact noSlash segment mem

theorem host_of_posix (url : FileUrl) (posix : inferPathConvention (file url) = some .posix) :
    url.host = none := by
  cases host : url.host with
  | none => rfl
  | some name => simp [inferPathConvention, host] at posix

theorem toAbsPath_denotes (place : Location) (valid : IsValid lib uri)
    (noDots : HasNoDots lib uri) (loc : location lib uri = some place)
    (posix : place.convention = .posix) :
    ∃ path, toAbsPath lib uri = some path ∧ Denotes lib uri path := by
  have infer := convention_of_location loc
  rw [posix] at infer
  cases uri with
  | fallback bytes => cases loc
  | file url =>
    have noHost := host_of_posix url infer
    have whole := loc
    simp only [location, infer, Option.bind_some, Option.map_eq_some_iff] at loc
    obtain ⟨segments, isIn, rfl⟩ := loc
    unfold containmentPathSegments at isIn
    split at isIn
    · cases isIn
    next unambiguous =>
      cases isIn
      have plain : ∀ name ∈ url.segments.map lib.decodeSegment,
          name ≠ ['.'] ∧ name ≠ ['.', '.'] ∧ '/' ∉ name := by
        intro name mem
        obtain ⟨segment, segmentMem, rfl⟩ := mem_map.mp mem
        obtain ⟨notDot, notParent⟩ := noDots segment segmentMem
        refine ⟨notDot, notParent, fun slash => unambiguous ?_⟩
        have named : segment ≠ [] := by
          rintro rfl
          rw [(lib.decode_eq_nil []).mpr rfl] at slash
          cases slash
        exact any_eq_true.mpr ⟨segment, mem_filter.mpr ⟨segmentMem, by simpa using
          named⟩, any_eq_true.mpr ⟨'/', slash, rfl⟩⟩
      have segmentsOf := pathSegments_flatMap (url.segments.map lib.decodeSegment)
        fun name mem => (plain name mem).2.2
      rw [flatMap_map] at segmentsOf
      refine ⟨AbsolutePathBuf.absolutizeFrom
        (url.segments.flatMap fun segment => '/' :: lib.decodeSegment segment)
        AbsolutePathBuf.root, ?_, valid, ?_⟩
      · rw [toAbsPath, if_neg (by simp [infer])]
        exact if_neg (by simp [noHost])
      · have names := AbsolutePathBuf.names_foldl_push AbsolutePathBuf.root _
          (fun name mem => (plain name mem).2.2)
          (fun mem => (plain _ mem).2.1 rfl)
        have noDot : (url.segments.map lib.decodeSegment).filter
            (fun name => name ≠ [] ∧ name ≠ ['.']) =
            (url.segments.map lib.decodeSegment).filter (· ≠ []) :=
          filter_congr fun name mem => by simp [(plain name mem).1]
        rw [AbsolutePathBuf.absolutizeFrom, segmentsOf, foldl_cons, ite_self,
          AbsolutePathBuf.push_of_ignored _ _ (.inl rfl), names, noDot, whole, noHost]
        simp [segmentName, AbsolutePathBuf.root, FileUrl.nonEmptySegments, filter_map,
          Function.comp_def, lib.decode_eq_nil]

/-! ## The root of the file system -/

theorem parent_ofNames (named : ∀ name ∈ names, name ≠ [])
    (posix : inferPathConvention (file ⟨none, ofNames names⟩) = some .posix) :
    parent (file ⟨none, ofNames names⟩) =
    if names = [] then none else some (file ⟨none, ofNames names.dropLast⟩) := by
  have nonEmpty : FileUrl.nonEmptySegments ⟨none, ofNames names⟩ = names :=
    filter_ofNames names named
  have kept := hasNoEmptyName_ofNames none names named
  have popped : popIfEmpty (ofNames names) = ofNames names := by
    rw [popIfEmpty_eq_ofNames _ kept.1 kept.2, filter_ofNames names named]
  simp [parent, posix, nonEmpty, anchorDepth, popped, pop_ofNames]

theorem lastAncestor_ofNames (fuel : Nat) (names : List Text)
    (named : ∀ name ∈ names, name ≠ []) (enough : names.length ≤ fuel)
    (posix : inferPathConvention (file ⟨none, ofNames names⟩) = some .posix) :
    lastAncestor fuel (file ⟨none, ofNames names⟩) = file ⟨none, [[]]⟩ := by
  induction fuel generalizing names with
  | zero =>
    rw [length_eq_zero_iff.mp (Nat.le_zero.mp enough)]
    rfl
  | succ fuel ih =>
    rw [lastAncestor, parent_ofNames names named posix]
    by_cases atRoot : names = []
    · subst atRoot
      rfl
    · rw [if_neg atRoot]
      have stillNamed : ∀ name ∈ names.dropLast, name ≠ [] := fun name mem =>
        named name (dropLast_subset names mem)
      refine ih names.dropLast stillNamed ?_ ?_
      · rw [length_dropLast]
        omega
      · rw [inferPathConvention_ofNames names named] at posix
        rw [inferPathConvention_ofNames _ stillNamed]
        match names with
        | [] => exact absurd rfl atRoot
        | [_] => rfl
        | first :: second :: rest => exact posix

theorem rootAncestor_denotes (plain : isFallback (fromAbsPath lib path) = false) :
    Denotes lib (rootAncestor (fromAbsPath lib path)) .root := by
  obtain ⟨made, valid, posix⟩ := fromAbsPath_eq lib path plain
  rw [made] at posix ⊢
  have named := encoded_named lib path
  have enough : (path.names.map lib.encodeSegment).length ≤
      (ofNames (path.names.map lib.encodeSegment)).length + 1 := by
    unfold ofNames
    split
    next empty =>
      rw [empty]
      exact Nat.zero_le _
    · exact Nat.le_succ _
  have got : rootAncestor (file ⟨none, ofNames (path.names.map lib.encodeSegment)⟩) =
    file ⟨none, [[]]⟩ := lastAncestor_ofNames _ _ named enough posix
  rw [got]
  refine denotes_of_segments ?_ rfl rfl
  refine if_neg ?_
  simp [(lib.decode_eq_nil []).mpr rfl]

end PathUri

end CodexFormal.Uri
