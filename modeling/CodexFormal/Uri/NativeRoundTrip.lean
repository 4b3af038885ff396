import CodexFormal.Uri.Containment
import CodexFormal.Uri.NativePath
import CodexFormal.Uri.PercentEncoding

/-!
# The round trip of native path text

Normalized path text of either convention becomes a URI that renders as the same
text.  On Windows a device alias is replaced by the path it stands for, and the
drive letter or the host is spelled as the URI spells it.
-/

set_option autoImplicit false

namespace CodexFormal.Uri

open Foundation List FileUrl PathConvention Utf16 AsciiCase
open Patch (Text)

/-! ## Normalized text -/

/-- No component is a dot segment, and only a last one can be empty. -/
def arePlainComponents (components : List Text) : Bool :=
  components.all (fun component => !PathUri.isDotSegment component) &&
    components.dropLast.all (· ≠ [])

def isNormalizedPosixPath : Text → Bool
  | '/' :: rest => arePlainComponents (PathConvention.posix.pathSegments rest)
  | _ => false

def isNormalizedUncPath (rest : Text) : Bool :=
  match PathConvention.windows.pathSegments rest with
  | host :: share :: components => share ≠ [] && arePlainComponents (host :: share :: components)
  | _ => false

/-- A drive, a device namespace or a host with a share, with backslashes only. -/
def isNormalizedWindowsPath (path : Text) : Bool :=
  !path.contains '/' &&
    match path with
    | '\\' :: '\\' :: mark :: '\\' :: rest =>
      if mark = '?' ∨ mark = '.' then
        arePlainComponents (PathConvention.windows.pathSegments rest)
      else isNormalizedUncPath (mark :: '\\' :: rest)
    | '\\' :: '\\' :: rest => isNormalizedUncPath rest
    | drive :: ':' :: '\\' :: rest =>
      drive.isAlpha && arePlainComponents (PathConvention.windows.pathSegments rest)
    | _ => false

def isNormalizedPath : PathConvention → Text → Bool
  | .posix => isNormalizedPosixPath
  | .windows => isNormalizedWindowsPath

theorem arePlainComponents_split {parts : List Text} (plain : arePlainComponents parts = true) :
    ∃ named trailing, parts = named ++ trailing ∧ (trailing = [] ∨ trailing = [[]]) ∧
    ∀ part ∈ named, part ≠ [] ∧ PathUri.isDotSegment part = false := by
  simp only [arePlainComponents, Bool.and_eq_true, all_eq_true, Bool.not_eq_true',
    decide_eq_true_eq] at plain
  obtain ⟨notDot, ne⟩ := plain
  rcases eq_nil_or_concat parts with rfl | ⟨initial, last, rfl⟩
  · exact ⟨[], [], rfl, .inl rfl, by simp⟩
  · rw [concat_eq_append, dropLast_concat] at ne
    rw [concat_eq_append] at notDot ⊢
    by_cases emptyLast : last = []
    · refine ⟨initial, [[]], by rw [emptyLast], .inr rfl, ?_⟩
      intro part mem
      exact ⟨ne part mem, notDot part (mem_append_left _ mem)⟩
    · refine ⟨initial ++ [last], [], (append_nil _).symm, .inl rfl, ?_⟩
      intro part mem
      refine ⟨?_, notDot part mem⟩
      rcases mem_append.mp mem with mem | mem
      · exact ne part mem
      · rwa [mem_singleton.mp mem]

theorem arePlainComponents_cons (part : Text) {rest : List Text} (more : rest ≠ []) :
    arePlainComponents (part :: rest) = true ↔
    part ≠ [] ∧ PathUri.isDotSegment part = false ∧ arePlainComponents rest = true := by
  simp only [arePlainComponents, dropLast_cons_of_ne_nil more, all_cons,
    Bool.and_eq_true, Bool.not_eq_true', decide_eq_true_eq]
  tauto

/-! ## Text and its segments -/

theorem flatMap_splitOnP (isSeparator : Char → Bool) (separator : Char) (text : Text)
    (canon : ∀ c ∈ text, isSeparator c = true → c = separator) :
    (text.splitOnP isSeparator).flatMap (separator :: ·) = separator :: text := by
  induction text with
  | nil => simp
  | cons c rest ih =>
    have restCanonical := ih fun other mem => canon other (mem_cons_of_mem c mem)
    rw [splitOnP_cons_eq_if_modifyHead]
    split
    next isSep =>
      rw [flatMap_cons, restCanonical, canon c (mem_cons_self ..) isSep]
      rfl
    · cases split : rest.splitOnP isSeparator with
      | nil => exact absurd split (splitOnP_ne_nil _ _)
      | cons first more =>
        rw [split, flatMap_cons, cons_append, List.cons.injEq] at restCanonical
        rw [modifyHead_cons, flatMap_cons, cons_append, cons_append, restCanonical.2]

theorem fromUtf8Lossy_utf8Bytes (replaced : Bytes → Text) (text : Text) :
    fromUtf8Lossy replaced (utf8Bytes text) = text := by
  have read : ByteArray.utf8Decode? ⟨(utf8Bytes text).toArray⟩ = some text.toArray := by
    rw [utf8Bytes, ← data_toByteArray]
    exact utf8Decode?_utf8Encode
  rw [fromUtf8Lossy, read]

theorem foldl_normalizeSegment (anchorDepth : Nat) {named : List Text} (state : NormalizedSegments)
    (plain : ∀ part ∈ named, part ≠ [] ∧ PathUri.isDotSegment part = false) :
    named.foldl (normalizeSegment anchorDepth) state =
    ⟨state.segments ++ named, state.depth + named.length,
    state.hasTrailingSeparator && named.isEmpty⟩ := by
  induction named generalizing state with
  | nil => simp
  | cons part rest ih =>
    obtain ⟨ne, notDot⟩ := plain part (mem_cons_self ..)
    simp only [PathUri.isDotSegment, Bool.or_eq_false_iff, beq_eq_false_iff_ne, ne_eq] at notDot
    rw [foldl_cons, ih _ fun other mem => plain other (mem_cons_of_mem _ mem)]
    simp only [normalizeSegment, ne, notDot.1, notDot.2, if_false]
    simp
    omega

theorem pathSegments_ne_nil (convention : PathConvention) (path : Text) :
    convention.pathSegments path ≠ [] :=
  splitOnP_ne_nil _ _

theorem mem_of_mem_splitOnP (isSeparator : Char → Bool) (text seg : Text)
    (mem : seg ∈ text.splitOnP isSeparator) : ∀ c ∈ seg, c ∈ text := by
  induction text generalizing seg with
  | nil =>
    rw [splitOnP_nil, mem_singleton] at mem
    simp [mem]
  | cons first rest ih =>
    rw [splitOnP_cons_eq_if_modifyHead] at mem
    intro c isIn
    split at mem
    · rcases mem_cons.mp mem with rfl | mem
      · cases isIn
      · exact mem_cons_of_mem first (ih seg mem c isIn)
    · cases split : rest.splitOnP isSeparator with
      | nil => exact absurd split (splitOnP_ne_nil _ _)
      | cons head more =>
        rw [split, modifyHead_cons] at mem
        rcases mem_cons.mp mem with rfl | mem
        · rcases mem_cons.mp isIn with rfl | isIn
          · exact mem_cons_self ..
          · exact mem_cons_of_mem first (ih head (by simp [split]) c isIn)
        · exact mem_cons_of_mem first (ih seg (by simp [split, mem]) c isIn)

namespace PathUri

variable (lib : UrlLibrary) (text : Text)

theorem encodeSegment_eq_nil : lib.encodeSegment text = [] ↔ text = [] := by
  rw [← lib.decode_eq_nil, lib.decode_encode]

theorem foldl_push (start segments : List Text) (ne : start ≠ []) (notRoot : start ≠ [[]]) :
    segments.foldl push start = start ++ segments := by
  induction segments generalizing start with
  | nil => simp
  | cons seg rest ih =>
    have pushed : push start seg = start ++ [seg] := if_neg notRoot
    rw [foldl_cons, pushed, ih _ (by simp)]
    · simp
    · intro root
      cases start with
      | nil => exact ne rfl
      | cons first more => simp at root

variable (segments : List Text)

theorem foldl_push_root (ne : segments ≠ [])
    (named : segments = [[]] ∨ segments.head? ≠ some []) : segments.foldl push [[]] = segments := by
  rcases named with rfl | named
  · rfl
  · cases segments with
    | nil => exact absurd rfl ne
    | cons first rest =>
      have firstNamed : first ≠ [] := fun empty => named (by rw [empty]; rfl)
      have pushed : push [[]] first = [first] := if_pos rfl
      rw [foldl_cons, pushed, foldl_push _ _ (by simp) (by simpa using firstNamed)]
      rfl

variable (convention : PathConvention) (host : Option Text)

theorem normalizedSegments_eq (segments : List Text) (plain : arePlainComponents segments = true)
    (rooted : convention = .windows → host = none → 1 < segments.length) :
    normalizedSegments convention host segments = segments := by
  obtain ⟨named, trailing, rfl, trailingCases, namedPlain⟩ :=
    arePlainComponents_split plain
  rcases trailingCases with rfl | rfl
  · rw [append_nil] at rooted ⊢
    simp only [normalizedSegments, foldl_normalizeSegment _ _ namedPlain, Bool.false_and,
      Bool.false_eq_true, false_or, nil_append, Nat.zero_add]
    refine if_neg ?_
    rintro ⟨rfl, noHost, depth⟩
    have deep := rooted rfl noHost
    simp only [anchorDepth] at depth
    omega
  · simp [normalizedSegments, foldl_normalizeSegment _ _ namedPlain, normalizeSegment]

theorem map_encodeSegment_named (plain : arePlainComponents segments = true) :
    segments.map lib.encodeSegment = [[]] ∨ (segments.map lib.encodeSegment).head? ≠ some [] := by
  obtain ⟨named, trailing, rfl, trailingCases, namedPlain⟩ :=
    arePlainComponents_split plain
  cases named with
  | nil =>
    rcases trailingCases with rfl | rfl
    · simp
    · simp [encodeSegment_eq_nil]
  | cons first rest =>
    right
    simp [encodeSegment_eq_nil, (namedPlain first (mem_cons_self ..)).1]

theorem tryFrom_encoded (segments : List Text) (noNull : ∀ seg ∈ segments, '\x00' ∉ seg) :
    tryFrom lib ⟨host, segments.map lib.encodeSegment⟩ = .ok (file (withNormalizedWindowsDriveLetter
    (withoutLocalhostAuthority ⟨host, segments.map lib.encodeSegment⟩))) := by
  refine if_neg ?_
  simpa [lib.decode_encode] using noNull

theorem pathUriFromSegments_eq
    (segments : List Text) (plain : arePlainComponents segments = true) (ne : segments ≠ [])
    (rooted : convention = .windows → host = none → 1 < segments.length)
    (noNull : ∀ seg ∈ segments, '\x00' ∉ seg) :
    pathUriFromSegments lib convention host segments = (parsedHost lib host).map fun parsed =>
    file (withNormalizedWindowsDriveLetter
    (withoutLocalhostAuthority ⟨parsed, segments.map lib.encodeSegment⟩)) := by
  unfold pathUriFromSegments
  simp only [normalizedSegments_eq convention host segments plain rooted,
    foldl_push_root _ (by simpa using ne) (map_encodeSegment_named lib segments plain),
    tryFrom_encoded lib _ segments noNull, Except.toOption]
  cases parsedHost lib host with
  | _ => rfl

/-! ## POSIX paths -/

theorem find?_upperDrive : (upperDrive segments).find? (· ≠ []) =
    (segments.find? (· ≠ [])).map fun segment =>
    if isWindowsDriveUriSegment segment then segment.modifyHead Char.toUpper else segment := by
  induction segments with
  | nil => rfl
  | cons segment rest ih =>
    cases segment with
    | nil => simpa [upperDrive] using ih
    | cons c text =>
      simp only [upperDrive]
      split <;> simp_all

theorem upperDrive_of_not_drive (notDrive : ∀ seg, segments.find? (· ≠ []) = some seg →
    isWindowsDriveUriSegment seg = false) : upperDrive segments = segments := by
  induction segments with
  | nil => rfl
  | cons seg rest ih =>
    cases seg with
    | nil => rw [upperDrive, ih (by simpa using notDrive)]
    | cons c text =>
      have shape := notDrive (c :: text) (by simp)
      simp [upperDrive, shape]

theorem isWindowsDriveUriSegment_upper {seg : Text} (drive : isWindowsDriveUriSegment seg = true) :
    isWindowsDriveUriSegment (seg.modifyHead Char.toUpper) = true := by
  unfold isWindowsDriveUriSegment at drive
  split at drive
  · exact isAlpha_toUpper _ drive
  · exact isAlpha_toUpper _ drive
  · exact isAlpha_toUpper _ drive
  · cases drive

theorem inferPathConvention_upperDrive : inferPathConvention (file ⟨none, upperDrive segments⟩) =
    inferPathConvention (file ⟨none, segments⟩) := by
  simp only [inferPathConvention, Option.isSome_none, Bool.false_eq_true, if_false,
    find?_upperDrive]
  cases segments.find? (· ≠ []) with
  | none => rfl
  | some seg =>
    by_cases drive : isWindowsDriveUriSegment seg = true
    · simp [drive, isWindowsDriveUriSegment_upper drive]
    · simp [drive]

theorem upperDrive_of_posix (posix : inferPathConvention (file ⟨none, segments⟩) = some .posix) :
    upperDrive segments = segments := by
  refine upperDrive_of_not_drive segments fun seg found => ?_
  simp only [inferPathConvention, Option.isSome_none, Bool.false_eq_true, if_false, found] at posix
  by_contra drive
  simp [drive] at posix

variable (rest : Text)

theorem utf8Bytes_slash : utf8Bytes ('/' :: rest) = 0x2F :: utf8Bytes rest := by
  have slash : String.utf8EncodeChar '/' = [0x2F] := by decide
  rw [utf8Bytes, flatMap_cons, slash]
  rfl

theorem renderPosixPath_encoded : renderPosixPath lib
    ⟨none, (posix.pathSegments rest).map lib.encodeSegment⟩ = some ('/' :: rest) := by
  have joined := flatMap_splitOnP posix.isSeparator '/' rest
    fun c _ separator => beq_iff_eq.mp separator
  simp only [renderPosixPath, Option.isSome_none, Bool.false_eq_true, if_false, flatMap_map,
    lib.decode_encode]
  exact congrArg some joined

variable {lib convention} in
theorem fromAbsoluteNativePath_induction {path : Text} {uri : PathUri} {holds : PathUri → Prop}
    (parsed : parseNativePath lib convention path = some uri)
    (isOther : holds (nativeFallback convention path))
    (ofParsed : inferPathConvention uri = some convention → holds uri) :
    ∃ kept, fromAbsoluteNativePath lib path convention = some kept ∧ holds kept := by
  rw [fromAbsoluteNativePath, parsed, Option.map_some]
  refine ⟨_, rfl, ?_⟩
  split
  next kept =>
    rw [Bool.and_eq_true, beq_iff_eq] at kept
    exact ofParsed kept.2
  · exact isOther

/-- The URI belongs to the convention and reads as the text. -/
def Spells (replaced : Bytes → Text) (convention : PathConvention) (uri : PathUri)
    (text : Text) : Prop :=
  inferPathConvention uri = some convention ∧ render lib replaced uri convention = .ok text

variable (replaced : Bytes → Text)

theorem fallback_spells_posix (rest : Text) :
    Spells lib replaced .posix (nativeFallback .posix ('/' :: rest)) ('/' :: rest) := by
  refine ⟨?_, ?_⟩
  · simp only [nativeFallback, utf8Bytes_slash]
    rfl
  · simp only [nativeFallback, render, renderFallback, fromUtf8Lossy_utf8Bytes]
    rw [utf8Bytes_slash]
    rfl

theorem posix_round_trip (text : Text) (norm : isNormalizedPosixPath text = true) :
    ∃ uri, fromAbsoluteNativePath lib text .posix = some uri ∧
    Spells lib replaced .posix uri text := by
  unfold isNormalizedPosixPath at norm
  split at norm
  next rest =>
    have isOther := fallback_spells_posix lib replaced rest
    by_cases null : rest.contains '\x00' = true
    · exact fromAbsoluteNativePath_induction (if_pos null) isOther fun _ => isOther
    · have segmentsNoNull : ∀ segment ∈ posix.pathSegments rest, '\x00' ∉ segment := by
        intro segment mem isIn
        exact null (by simpa using mem_of_mem_splitOnP _ rest segment mem _ isIn)
      have parsed : pathUriFromSegments lib .posix none (posix.pathSegments rest) =
          some (file ⟨none, upperDrive ((posix.pathSegments rest).map lib.encodeSegment)⟩) :=
        pathUriFromSegments_eq lib .posix none _ norm
          (pathSegments_ne_nil _ _) (fun windows => by cases windows) segmentsNoNull
      refine fromAbsoluteNativePath_induction
        ((if_neg null).trans parsed) isOther fun infer => ⟨infer, ?_⟩
      rw [inferPathConvention_upperDrive] at infer
      rw [upperDrive_of_posix _ infer]
      simp [render, renderPosixPath_encoded]
  · cases norm

/-! ## Windows paths -/

/-- Text that begins with a drive or with two backslashes. -/
inductive HasWindowsRoot : Text → Prop
  | drive (letter : Char) (rest : Text) (alpha : letter.isAlpha = true) :
      HasWindowsRoot (letter :: ':' :: '\\' :: rest)
  | double (rest : Text) : HasWindowsRoot ('\\' :: '\\' :: rest)

inductive RootSpelling : Text → Text → Prop
  | same (text : Text) : RootSpelling text text
  | drive (letter : Char) (rest : Text) :
      RootSpelling (letter :: ':' :: rest) (letter.toUpper :: ':' :: rest)
  | host (host parsed rest : Text) (parses : lib.parseHost host = some parsed)
      (sameHost : eqIgnoreAsciiCase parsed host = true) :
      RootSpelling ('\\' :: '\\' :: host ++ '\\' :: rest) ('\\' :: '\\' :: parsed ++ '\\' :: rest)

theorem inferFallbackConvention_utf16 (first second : Char) (rest : Text)
    (firstAscii : first.toNat < 128) (secondAscii : second.toNat < 128)
    (root : first = '\\' ∧ second = '\\' ∨ first.isAlpha = true ∧ second = ':') :
    inferFallbackConvention (utf16Bytes (first :: second :: rest)) = some .windows := by
  have length := length_toBytes (encode (first :: second :: rest))
  unfold utf16Bytes
  rw [toBytes_encode_ascii first _ firstAscii,
    toBytes_encode_ascii second _ secondAscii] at length ⊢
  rcases root with ⟨rfl, rfl⟩ | ⟨alpha, rfl⟩
  · unfold inferFallbackConvention
    rw [head?_cons, if_neg (by decide), if_neg (not_not.mpr length)]
    rfl
  · have letter : (UInt8.ofNat first.toNat).toNat = first.toNat := by
      rw [UInt8.toNat_ofNat']
      omega
    have notSlash : ¬ UInt8.ofNat first.toNat = 0x2F := by
      intro slash
      rw [slash] at letter
      rw [← Char.ofNat_toNat first, ← letter] at alpha
      revert alpha
      decide
    unfold inferFallbackConvention
    rw [if_neg (by simpa using notSlash), if_neg (not_not.mpr length)]
    simp [letter, alpha]

theorem fallback_spells_windows (text : Text) (rooted : HasWindowsRoot text) :
    Spells lib replaced .windows (windowsFallback text) text := by
  have shown : hasWindowsRoot (encode text) = true →
      render lib replaced (windowsFallback text) .windows = .ok text := by
    intro root
    simp [render, windowsFallback, renderFallback, renderWindowsFallback, utf16Bytes,
      ofBytes_toBytes_encode, root, decodeLossy_encode]
  cases rooted with
  | drive letter rest alpha =>
    have bounds := (isAlpha_iff letter).mp alpha
    refine ⟨inferFallbackConvention_utf16 letter ':' _ (by omega) (by decide)
      (.inr ⟨alpha, rfl⟩), shown ?_⟩
    rw [encode_cons_of_lt letter _ (by omega), encode_cons_of_lt ':' _ (by decide),
      encode_cons_of_lt '\\' _ (by decide)]
    simpa [hasWindowsRoot, hasWindowsRoot.isSeparatorUnit] using bounds
  | double rest =>
    refine ⟨inferFallbackConvention_utf16 '\\' '\\' rest (by decide) (by decide)
      (.inl ⟨rfl, rfl⟩), shown ?_⟩
    rw [encode_cons_of_lt '\\' _ (by decide), encode_cons_of_lt '\\' _ (by decide)]
    rfl

/-- Text of a drive or of a share, normalized below its root. -/
inductive IsRootedPath : Text → Prop
  | drive (letter : Char) (rest : Text) (alpha : letter.isAlpha = true)
      (plain : arePlainComponents (PathConvention.windows.pathSegments rest) = true)
      (canonical : '/' ∉ rest) : IsRootedPath (letter :: ':' :: '\\' :: rest)
  | unc (rest : Text) (plain : isNormalizedUncPath rest = true) (canonical : '/' ∉ rest) :
      IsRootedPath ('\\' :: '\\' :: rest)

theorem flatMap_windowsSegments (canon : '/' ∉ rest) :
    (windows.pathSegments rest).flatMap ('\\' :: ·) = '\\' :: rest := by
  refine flatMap_splitOnP _ '\\' rest fun c mem separator => ?_
  simp only [isSeparator, isWindowsSeparator, Bool.or_eq_true, beq_iff_eq] at separator
  rcases separator with separator | separator
  · exact separator
  · exact absurd (separator ▸ mem) canon

theorem windowsSegments_noNull (noNull : '\x00' ∉ rest) :
    ∀ segment ∈ windows.pathSegments rest, '\x00' ∉ segment :=
  fun segment mem isIn => noNull (mem_of_mem_splitOnP _ rest segment mem _ isIn)

variable (letter : Char)

theorem isAlpha_not_separator (alpha : letter.isAlpha = true) :
    isWindowsSeparator letter = false := by
  by_contra separator
  simp only [isWindowsSeparator, Bool.not_eq_false, Bool.or_eq_true, beq_iff_eq] at separator
  rcases separator with rfl | rfl
  · revert alpha
    decide
  · revert alpha
    decide

theorem decodeSegment_drive (alpha : letter.isAlpha = true) :
    lib.decodeSegment [letter, ':'] = [letter, ':'] := by
  have read := lib.decode_encode [letter, ':']
  rwa [lib.encode_drive letter alpha] at read

theorem upperDrive_drive (rest : List Text) (alpha : letter.isAlpha = true) :
    upperDrive ([letter, ':'] :: rest) = [letter.toUpper, ':'] :: rest := by
  have drive : isWindowsDriveUriSegment [letter, ':'] = true := alpha
  rw [upperDrive, if_pos drive]
  · rfl
  · exact fun empty => by cases empty

theorem renderWindowsSegments_encoded (shown : Text) (segments : List Text)
    (long : 2 < (shown ++ segments.flatMap ('\\' :: ·)).length) :
    renderWindowsSegments lib shown (segments.map lib.encodeSegment) =
    shown ++ segments.flatMap ('\\' :: ·) := by
  simp only [renderWindowsSegments, flatMap_map, lib.decode_encode]
  unfold closeDriveRoot
  split
  next short =>
    rw [short] at long
    exact absurd long (Nat.lt_irrefl 2)
  · rfl

/-- What parsing and rendering make of rooted text: the fallback, or a spelling of its root. -/
def ParsesAs (replaced : Bytes → Text) (text : Text) (uri : PathUri) : Prop :=
  uri = windowsFallback text ∨ isFallback uri = false ∧
    ∃ spelling, Spells lib replaced .windows uri spelling ∧ RootSpelling lib text spelling

theorem parse_drive (rest : Text) (alpha : letter.isAlpha = true)
    (plain : arePlainComponents (windows.pathSegments rest) = true) (canon : '/' ∉ rest) :
    ∃ uri, parseUnnormalizedWindowsPath lib (letter :: ':' :: '\\' :: rest) = some uri ∧
    ParsesAs lib replaced (letter :: ':' :: '\\' :: rest) uri := by
  by_cases fallsBack : usesNamespace (letter :: ':' :: '\\' :: rest) = true ∨
    (letter :: ':' :: '\\' :: rest).contains '\x00' = true
  · exact ⟨_, if_pos fallsBack, .inl rfl⟩
  · have noNull : '\x00' ∉ letter :: ':' :: '\\' :: rest := fun null =>
      fallsBack (.inr (contains_iff_mem.mpr null))
    have segmentsNonempty := pathSegments_ne_nil .windows rest
    have parsed : pathUriFromSegments lib .windows none
        ([letter, ':'] :: windows.pathSegments rest) =
        some (file ⟨none, [letter.toUpper, ':'] ::
          (windows.pathSegments rest).map lib.encodeSegment⟩) := by
      rw [pathUriFromSegments_eq lib .windows none]
      · rw [map_cons, lib.encode_drive letter alpha, ← upperDrive_drive letter _ alpha]
        rfl
      · rw [arePlainComponents_cons _ segmentsNonempty]
        refine ⟨by simp, ?_, plain⟩
        simp [isDotSegment]
      · simp
      · intro _ _
        rw [length_cons]
        have := length_pos_iff.mpr segmentsNonempty
        omega
      · intro seg mem
        rcases mem_cons.mp mem with rfl | mem
        · intro null
          rcases mem_cons.mp null with isLetter | inColon
          · exact noNull (isLetter ▸ mem_cons_self ..)
          · exact absurd inColon (by decide)
        · exact windowsSegments_noNull rest (fun null => noNull (by simp [null])) seg mem
    refine ⟨_, (if_neg fallsBack).trans ((if_pos ?_).trans parsed), .inr ⟨rfl, _, ⟨?_, ?_⟩,
      .drive letter ('\\' :: rest)⟩⟩
    · rw [alpha]
      rfl
    · simp [inferPathConvention, isWindowsDriveUriSegment, isAlpha_toUpper letter alpha]
    · have upperAlpha := isAlpha_toUpper letter alpha
      have path : renderWindowsPath lib ⟨none, [letter.toUpper, ':'] ::
          (windows.pathSegments rest).map lib.encodeSegment⟩ =
          some (letter.toUpper :: ':' :: '\\' :: rest) := by
        have body := flatMap_windowsSegments rest canon
        simp only [renderWindowsPath, decodeSegment_drive lib _ upperAlpha, upperAlpha, if_true]
        rw [renderWindowsSegments_encoded, body]
        · rfl
        · rw [body]
          simp
      simp [render, path]

theorem renderWindowsPath_unc (host share : Text) (parts : List Text) (named : share ≠ []) :
    renderWindowsPath lib ⟨some host, (share :: parts).map lib.encodeSegment⟩ =
    some ('\\' :: '\\' :: host ++ (share :: parts).flatMap ('\\' :: ·)) := by
  simp only [renderWindowsPath, map_cons, lib.decode_encode, if_neg named]
  rw [renderWindowsSegments_encoded]
  · simp
  · simp only [length_append, length_cons]
    omega

/-- The URI of a share: an ordinary one with the host as it was parsed, or the fallback. -/
theorem uncPathUri_cases (path host share : Text) (parts : List Text)
    (plain : arePlainComponents (share :: parts) = true)
    (noNull : ∀ seg ∈ share :: parts, '\x00' ∉ seg) :
    uncPathUri lib path host share parts = windowsFallback path ∨
    ∃ parsed, lib.parseHost host = some parsed ∧ eqIgnoreAsciiCase parsed host = true ∧
    uncPathUri lib path host share parts =
    file ⟨some parsed, (share :: parts).map lib.encodeSegment⟩ := by
  unfold uncPathUri
  rw [pathUriFromSegments_eq lib .windows (some host) _ plain (by simp)
    (fun _ noHost => by cases noHost) noNull]
  cases parses : lib.parseHost host with
  | none =>
    left
    simp [parsedHost, parses]
  | some parsed =>
    by_cases isLocal : some parsed = some "localhost".toList
    · left
      have dropped : (mk (some parsed) ((share :: parts).map
        lib.encodeSegment)).withoutLocalhostAuthority =
        ⟨none, (share :: parts).map lib.encodeSegment⟩ := if_pos isLocal
      simp only [parsedHost, parses, Option.map_some, dropped]
      rfl
    · have kept : (mk (some parsed) ((share :: parts).map
        lib.encodeSegment)).withoutLocalhostAuthority =
        ⟨some parsed, (share :: parts).map lib.encodeSegment⟩ := if_neg isLocal
      simp only [parsedHost, parses, Option.map_some, kept,
        withNormalizedWindowsDriveLetter, Option.isSome_some, if_true]
      by_cases sameHost : eqIgnoreAsciiCase parsed host = true
      · right
        exact ⟨parsed, rfl, sameHost, if_pos sameHost⟩
      · left
        exact if_neg sameHost

theorem parse_unc (rest : Text) (norm : isNormalizedUncPath rest = true) (canon : '/' ∉ rest) :
    ∃ uri, parseUnnormalizedWindowsPath lib ('\\' :: '\\' :: rest) = some uri ∧
    ParsesAs lib replaced ('\\' :: '\\' :: rest) uri := by
  by_cases fallsBack : usesNamespace ('\\' :: '\\' :: rest) = true ∨
    ('\\' :: '\\' :: rest).contains '\x00' = true
  · exact ⟨_, if_pos fallsBack, .inl rfl⟩
  · have noNull : '\x00' ∉ rest := fun null =>
      fallsBack (.inr (contains_iff_mem.mpr (by simp [null])))
    have unc : parseUnnormalizedWindowsPath lib ('\\' :: '\\' :: rest) =
      parseUnnormalizedWindowsPath.uncPath lib ('\\' :: '\\' :: rest) := if_neg fallsBack
    have body := flatMap_windowsSegments rest canon
    have segmentsNoNull := windowsSegments_noNull rest noNull
    unfold isNormalizedUncPath at norm
    split at norm
    next host share parts segments =>
      rw [Bool.and_eq_true, decide_eq_true_eq, arePlainComponents_cons _ (cons_ne_nil _ _)] at norm
      obtain ⟨named, hostNamed, hostNotDot, plain⟩ := norm
      rw [segments] at body segmentsNoNull
      have shareNotDot : isDotSegment share = false := by
        simp only [arePlainComponents, all_cons, Bool.and_eq_true, Bool.not_eq_true'] at plain
        exact plain.1.1
      have parsed : parseUnnormalizedWindowsPath.uncPath lib ('\\' :: '\\' :: rest) =
          some (uncPathUri lib ('\\' :: '\\' :: rest) host share parts) := by
        simp [parseUnnormalizedWindowsPath.uncPath, isWindowsSeparator, segments, hostNamed,
          named, hostNotDot, shareNotDot]
      refine ⟨_, unc.trans parsed, ?_⟩
      rcases uncPathUri_cases lib ('\\' :: '\\' :: rest) host share parts plain
        (fun seg mem => segmentsNoNull seg (mem_cons_of_mem host mem))
        with isFallback | ⟨parsedHost, parses, sameHost, isFile⟩
      · exact .inl isFallback
      · right
        rw [isFile]
        have spelled := RootSpelling.host host parsedHost
          (share ++ parts.flatMap ('\\' :: ·)) parses sameHost
        have text : '\\' :: '\\' :: rest =
            '\\' :: '\\' :: host ++ '\\' :: (share ++ parts.flatMap ('\\' :: ·)) := by
          rw [← body]
          simp
        rw [text]
        refine ⟨rfl, _, ⟨rfl, ?_⟩, spelled⟩
        simp only [render, renderWindowsPath_unc lib parsedHost share parts named]
        simp
    · cases norm

theorem parse_rooted (text : Text) (rooted : IsRootedPath text) :
    ∃ uri, parseUnnormalizedWindowsPath lib text = some uri ∧ ParsesAs lib replaced text uri := by
  cases rooted with
  | drive letter rest alpha plain canon =>
    exact parse_drive lib replaced letter rest alpha plain canon
  | unc rest plain canon => exact parse_unc lib replaced rest plain canon

/-! ## Device paths -/

theorem normalizeWindowsDevicePath_cases {path target : Text}
    (isAlias : normalizeWindowsDevicePath path = some target) :
    ∃ mark rest, path = '\\' :: '\\' :: mark :: '\\' :: rest ∧ (mark = '?' ∨ mark = '.') ∧
    ((∃ unc, rest = 'U' :: 'N' :: 'C' :: '\\' :: unc ∧ target = '\\' :: '\\' :: unc) ∨
    isWindowsDriveAbsolutePath rest = true ∧ target = rest) := by
  unfold normalizeWindowsDevicePath at isAlias
  split at isAlias
  next mark rest =>
    split at isAlias
    next isMark =>
      refine ⟨mark, rest, rfl, isMark, ?_⟩
      split at isAlias
      next unc =>
        exact .inl ⟨unc, rfl, (Option.some.inj isAlias).symm⟩
      · split at isAlias
        next drive =>
          exact .inr ⟨drive, (Option.some.inj isAlias).symm⟩
        · cases isAlias
    · cases isAlias
  · cases isAlias

theorem isNormalizedWindowsPath_device {mark : Char} {rest : Text} (isMark : mark = '?' ∨ mark =
  '.') (norm : isNormalizedWindowsPath ('\\' :: '\\' :: mark :: '\\' :: rest) = true) :
    arePlainComponents (windows.pathSegments rest) = true ∧ '/' ∉ rest := by
  simp only [isNormalizedWindowsPath, if_pos isMark, Bool.and_eq_true, Bool.not_eq_true',
    contains_eq_mem, decide_eq_false_iff_not] at norm
  exact ⟨norm.2, fun slash => norm.1 (by simp [slash])⟩

theorem isRootedPath_of_alias {path target : Text} (norm : isNormalizedWindowsPath path = true)
    (isAlias : normalizeWindowsDevicePath path = some target)
    (hasShare : hasUncHostAndShare target = true) : IsRootedPath target := by
  obtain ⟨mark, rest, rfl, isMark, form⟩ := normalizeWindowsDevicePath_cases isAlias
  obtain ⟨plain, canon⟩ := isNormalizedWindowsPath_device isMark norm
  rcases form with ⟨unc, rfl, rfl⟩ | ⟨drive, rfl⟩
  · have segments : windows.pathSegments ('U' :: 'N' :: 'C' :: '\\' :: unc) =
        ['U', 'N', 'C'] :: windows.pathSegments unc :=
      splitOnP_append_cons ['U', 'N', 'C'] unc rfl
    rw [segments, arePlainComponents_cons _ (pathSegments_ne_nil _ _)] at plain
    refine .unc unc ?_ fun slash => canon (by simp [slash])
    unfold hasUncHostAndShare at hasShare
    split at hasShare
    next other same =>
      cases same
      split at hasShare
      next host share parts found =>
        rw [found] at plain
        simp at hasShare
        unfold isNormalizedUncPath
        rw [found]
        simp [hasShare, plain]
      · cases hasShare
    next notUnc =>
      exact absurd rfl (notUnc unc)
  · unfold isWindowsDriveAbsolutePath at drive
    split at drive
    next letter separator rest =>
      rw [Bool.and_eq_true] at drive
      have backslash : separator = '\\' := by
        have isSeparator := drive.2
        simp only [isWindowsSeparator, Bool.or_eq_true, beq_iff_eq] at isSeparator
        rcases isSeparator with isSeparator | rfl
        · exact isSeparator
        · exact absurd (by simp) canon
      subst backslash
      have segments : windows.pathSegments (letter :: ':' :: '\\' :: rest) =
          [letter, ':'] :: windows.pathSegments rest := by
        have separated : windows.isSeparator '\\' = true := rfl
        have drivePlain : ∀ c ∈ [letter, ':'], windows.isSeparator c = false := by
          intro c mem
          rcases mem_cons.mp mem with rfl | mem
          · exact isAlpha_not_separator c drive.1
          · rw [mem_singleton.mp mem]
            rfl
        have cut := splitOnP_append_cons [letter, ':'] rest separated
        rwa [splitOnP_eq_singleton drivePlain] at cut
      rw [segments, arePlainComponents_cons _ (pathSegments_ne_nil _ _)] at plain
      exact .drive letter rest drive.1 plain.2.2 fun slash => canon (by simp [slash])
    · cases drive

/-- The path itself or the one it is an alias of, with its root as the URI spells it. -/
def NativeSpelling (convention : PathConvention) (text spelling : Text) : Prop :=
  match convention with
  | .posix => spelling = text
  | .windows => RootSpelling lib text spelling ∨
      ∃ target, normalizeWindowsDevicePath text = some target ∧ RootSpelling lib target spelling

theorem hasWindowsRoot_of_normalized
    (norm : isNormalizedWindowsPath text = true) : HasWindowsRoot text := by
  simp only [isNormalizedWindowsPath, Bool.and_eq_true] at norm
  obtain ⟨_, form⟩ := norm
  split at form
  · exact .double _
  · exact .double _
  · rw [Bool.and_eq_true] at form
    exact .drive _ _ form.1
  · cases form

theorem isRootedPath_or_usesNamespace (norm : isNormalizedWindowsPath text = true) :
    IsRootedPath text ∨ usesNamespace text = true := by
  simp only [isNormalizedWindowsPath, Bool.and_eq_true, Bool.not_eq_true', contains_eq_mem,
    decide_eq_false_iff_not] at norm
  obtain ⟨canon, form⟩ := norm
  split at form
  next mark rest =>
    split at form
    next isMark =>
      right
      rcases isMark with rfl | rfl
      · rfl
      · rfl
    · exact .inl (.unc _ form fun slash => canon (by simpa using slash))
  next rest _ =>
    exact .inl (.unc _ form fun slash => canon (by simp [slash]))
  next letter rest =>
    rw [Bool.and_eq_true] at form
    exact .inl (.drive letter rest form.1 form.2 fun slash => canon (by simp [slash]))
  · cases form

theorem windows_round_trip (text : Text) (norm : isNormalizedWindowsPath text = true) :
    ∃ uri, fromAbsoluteNativePath lib text .windows = some uri ∧
    ∃ spelling, Spells lib replaced .windows uri spelling ∧
    NativeSpelling lib .windows text spelling ∧ (isFallback uri = true → spelling = text) := by
  have isOther : ∃ spelling, Spells lib replaced .windows (windowsFallback text) spelling ∧
      NativeSpelling lib .windows text spelling ∧
      (isFallback (windowsFallback text) = true → spelling = text) :=
    ⟨text, fallback_spells_windows lib replaced text
      (hasWindowsRoot_of_normalized text norm), .inl (.same text), fun _ => rfl⟩
  suffices parses : ∃ uri, parseWindowsPath lib text = some uri ∧
      ∃ spelling, Spells lib replaced .windows uri spelling ∧
      NativeSpelling lib .windows text spelling ∧ (isFallback uri = true → spelling = text) by
    obtain ⟨uri, parsed, spelled⟩ := parses
    exact fromAbsoluteNativePath_induction parsed isOther fun _ => spelled
  unfold parseWindowsPath
  cases isAlias : normalizeWindowsDevicePath text with
  | none =>
    rcases isRootedPath_or_usesNamespace text norm with rooted | device
    · obtain ⟨uri, parsed, parsesAs⟩ := parse_rooted lib replaced text rooted
      refine ⟨uri, parsed, ?_⟩
      rcases parsesAs with rfl | ⟨isFile, spelling, spells, root⟩
      · exact isOther
      · exact ⟨spelling, spells, .inl root, by simp [isFile]⟩
    · exact ⟨_, if_pos (.inl device), isOther⟩
  | some target =>
    dsimp only
    split
    next hasShare =>
      have rooted := isRootedPath_of_alias norm isAlias hasShare
      obtain ⟨uri, parsed, parsesAs⟩ := parse_rooted lib replaced target rooted
      rw [parsed]
      dsimp only
      split
      next plain =>
        rcases parsesAs with rfl | ⟨isFile, spelling, spells, root⟩
        · cases plain
        · exact ⟨uri, rfl, spelling, spells, .inr ⟨target, isAlias, root⟩, by simp [isFile]⟩
      · exact ⟨_, rfl, isOther⟩
    · exact ⟨_, rfl, isOther⟩

/-! ## Equal URIs -/

/-- Texts that the convention does not tell apart. -/
def SameNativeText (convention : PathConvention) (first second : Text) : Prop :=
  match convention with
  | .posix => first = second
  | .windows => eqIgnoreAsciiCase first second = true

theorem lowercase_append (first second : Text) :
    lowercase (first ++ second) = lowercase first ++ lowercase second :=
  map_append

theorem lowercase_flatMap : lowercase (segments.flatMap fun seg => '\\' :: lib.decodeSegment seg) =
    ((segments.map lib.decodeSegment).map lowercase).flatMap ('\\' :: ·) := by
  induction segments with
  | nil => rfl
  | cons seg rest ih =>
    rw [flatMap_cons, lowercase_append, ih]
    rfl

theorem lowercase_closeDriveRoot :
    lowercase (closeDriveRoot text) = closeDriveRoot (lowercase text) := by
  unfold closeDriveRoot
  split
  · rfl
  next notDrive =>
    split
    next letter lowered =>
      exfalso
      obtain ⟨first, rest, rfl, _, restLower⟩ := map_eq_cons_iff.mp lowered
      obtain ⟨second, more, rfl, colon, othersLower⟩ := map_eq_cons_iff.mp restLower
      rw [map_eq_nil_iff.mp othersLower, (toLower_eq_iff second ':' rfl).mp colon] at notDrive
      exact notDrive first rfl
    · rfl

theorem lowercase_renderWindowsPath (url : FileUrl) (text : Text)
    (shown : renderWindowsPath lib url = some text) : url.segments ≠ [] ∧ lowercase text =
        (let names := ((url.segments.map lib.decodeSegment).map lowercase).flatMap ('\\' :: ·)
        match url.host with
        | some host => closeDriveRoot ('\\' :: '\\' :: lowercase host ++ names)
        | none => closeDriveRoot names.tail) := by
  unfold renderWindowsPath at shown
  split at shown
  · cases shown
  next host share segments hasHost hasSegments =>
    split at shown
    · cases shown
    · rw [← Option.some.inj shown, hasHost, hasSegments]
      refine ⟨cons_ne_nil _ _, ?_⟩
      rw [renderWindowsSegments, lowercase_closeDriveRoot, lowercase_append, lowercase_flatMap]
      simp [lowercase]
  next drive segments hasHost hasSegments =>
    split at shown
    next letter read =>
      split at shown
      · rw [← Option.some.inj shown, hasHost, hasSegments]
        refine ⟨cons_ne_nil _ _, ?_⟩
        rw [renderWindowsSegments, lowercase_closeDriveRoot, lowercase_append, lowercase_flatMap]
        simp [lowercase, read]
      · cases shown
    · cases shown

variable {lib replaced} in
theorem renderWindowsPath_of_spells {url : FileUrl} {text : Text}
    (spells : Spells lib replaced .windows (file url) text) :
    renderWindowsPath lib url = some text := by
  have shown := spells.2
  simp only [render] at shown
  split at shown
  next found =>
    rwa [← Except.ok.inj shown]
  · cases shown

variable {lib replaced} in
theorem spelling_of_eqUri {convention : PathConvention}
    {first second : PathUri} {text other : Text} (same : eqUri lib first second = true)
    (spells : Spells lib replaced convention first text)
    (otherSpells : Spells lib replaced convention second other) :
    SameNativeText convention text other := by
  rcases eqUri_cases same with rfl | ⟨url, otherUrl, rfl, rfl, infer,
    otherInferred, plain, otherPlain, sameHost, sameNames⟩
  · have equal : text = other := Except.ok.inj (spells.2.symm.trans otherSpells.2)
    subst equal
    cases convention with
    | posix => rfl
    | windows => simp [SameNativeText, eqIgnoreAsciiCase]
  · cases Option.some.inj (infer.symm.trans spells.1)
    obtain ⟨ne, lower⟩ := lowercase_renderWindowsPath lib url text
      (renderWindowsPath_of_spells spells)
    obtain ⟨otherNonempty, otherLower⟩ := lowercase_renderWindowsPath lib otherUrl other
      (renderWindowsPath_of_spells otherSpells)
    have names := congrArg (List.splitOn '/') sameNames
    rw [splitOn_intercalate '/' (noSlash_of_hasPlainSegments lib _ plain) (by simpa using ne),
      splitOn_intercalate '/' (noSlash_of_hasPlainSegments lib _ otherPlain)
        (by simpa using otherNonempty)] at names
    rw [SameNativeText, eqIgnoreAsciiCase, beq_iff_eq, lower, otherLower, names, sameHost]

theorem fromAbsoluteNativePath_spells {convention : PathConvention}
    {text : Text} (norm : isNormalizedPath convention text = true) :
    ∃ uri, fromAbsoluteNativePath lib text convention = some uri ∧
    ∃ spelling, Spells lib replaced convention uri spelling ∧
    NativeSpelling lib convention text spelling ∧ (isFallback uri = true → spelling = text) := by
  cases convention with
  | posix =>
    obtain ⟨uri, kept, spells⟩ := posix_round_trip lib replaced text norm
    exact ⟨uri, kept, text, spells, rfl, fun _ => rfl⟩
  | windows => exact windows_round_trip lib replaced text norm

theorem toPathUri_eq_ok (text : Text) (uri : PathUri) : toPathUri lib text convention = .ok uri ↔
    fromAbsoluteNativePath lib text convention = some uri := by
  unfold toPathUri
  cases fromAbsoluteNativePath lib text convention with
  | _ => simp

/-- Normalized path text becomes a URI that renders as the same text, with its root as URIs
spell it on Windows and exactly where the fallback encoding is needed; texts of equal URIs are
the same native text. -/
theorem native_text_round_trips (replaced : Bytes → Text) (convention : PathConvention)
    (text : Text) (normalized : isNormalizedPath convention text = true) :
    ∃ uri spelling, toPathUri lib text convention = .ok uri ∧
      render lib replaced uri convention = .ok spelling ∧
      NativeSpelling lib convention text spelling ∧
      (isFallback uri = true → spelling = text) ∧
      ∀ other otherUri, isNormalizedPath convention other = true →
        toPathUri lib other convention = .ok otherUri → eqUri lib uri otherUri = true →
        ∃ otherSpelling, render lib replaced otherUri convention = .ok otherSpelling ∧
          NativeSpelling lib convention other otherSpelling ∧
          SameNativeText convention spelling otherSpelling := by
  obtain ⟨uri, kept, spelling, spells, native, exactly⟩ :=
    fromAbsoluteNativePath_spells lib replaced normalized
  refine ⟨uri, spelling, (toPathUri_eq_ok lib convention text uri).mpr kept, spells.2, native,
    exactly, ?_⟩
  intro other otherUri otherNormalized otherParsed same
  obtain ⟨found, otherKept, otherSpelling, otherSpells, otherNative, _⟩ :=
    fromAbsoluteNativePath_spells lib replaced otherNormalized
  have isOther : found = otherUri := by
    rw [toPathUri_eq_ok, otherKept] at otherParsed
    exact Option.some.inj otherParsed
  subst isOther
  exact ⟨otherSpelling, otherSpells.2, otherNative, spelling_of_eqUri same spells otherSpells⟩

theorem lower_case_drive_round_trips :
    ∃ uri spelling, toPathUri PercentEncoding.urlLibrary "c:\\a b".toList .windows = .ok uri ∧
      render PercentEncoding.urlLibrary (fun _ => []) uri .windows = .ok spelling ∧
      NativeSpelling PercentEncoding.urlLibrary .windows "c:\\a b".toList spelling := by
  obtain ⟨uri, spelling, parsed, rendered, native, _⟩ :=
    native_text_round_trips PercentEncoding.urlLibrary (fun _ => []) .windows "c:\\a b".toList
      (by decide)
  exact ⟨uri, spelling, parsed, rendered, native⟩

/-- A drive letter in lower case is rendered in upper case, and a device alias of a drive has
the URI of the drive. -/
theorem drive_letter_and_alias_are_not_kept :
    isNormalizedPath .windows "c:\\x".toList = true ∧
      isNormalizedPath .windows "\\\\?\\C:\\x".toList = true ∧
      ((toPathUri PercentEncoding.urlLibrary "c:\\x".toList .windows).bind fun uri =>
        render PercentEncoding.urlLibrary (fun _ => []) uri .windows) = .ok "C:\\x".toList ∧
      eqIgnoreAsciiCase "\\\\?\\C:\\x".toList "C:\\x".toList = false ∧
      toPathUri PercentEncoding.urlLibrary "\\\\?\\C:\\x".toList .windows =
        toPathUri PercentEncoding.urlLibrary "C:\\x".toList .windows := by
  decide

end PathUri

end CodexFormal.Uri
