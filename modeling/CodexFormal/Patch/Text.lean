import Mathlib.Algebra.GroupWithZero.Nat
import Mathlib.Data.List.DropRight

/-!
# Text

Patch texts and file contents are lists of characters.  Only what the patch
code asks of a string is modelled: Unicode white space and the trims built on
it, the removal of a leading marker, and the split into lines.
-/

set_option autoImplicit false

namespace CodexFormal.Patch

open List

abbrev Text := List Char

/-- The code points with the Unicode property White_Space, which is what the
string trims of the source remove. -/
def isWhitespace (c : Char) : Bool :=
  (0x09 ≤ c.toNat && c.toNat ≤ 0x0D) || c.toNat == 0x20 || c.toNat == 0x85 ||
    c.toNat == 0xA0 || c.toNat == 0x1680 || (0x2000 ≤ c.toNat && c.toNat ≤ 0x200A) ||
    c.toNat == 0x2028 || c.toNat == 0x2029 || c.toNat == 0x202F || c.toNat == 0x205F ||
    c.toNat == 0x3000

variable (text : Text)

def trimStart : Text := text.dropWhile isWhitespace

def trimEnd : Text := text.rdropWhile isWhitespace

def trim : Text := trimEnd (trimStart text)

def stripPrefix (text marker : Text) : Option Text := text.dropPrefix? marker

def splitNewlines : Text → List Text × Text
  | [] => ([], [])
  | c :: rest =>
    let (ended, last) := splitNewlines rest
    if c = '\n' then ([] :: ended, last)
    else match ended with
      | [] => ([], c :: last)
      | line :: lines => ((c :: line) :: lines, last)

def stripCarriageReturn (line : Text) : Text :=
  if line.getLast? = some '\r' then line.dropLast else line

/-- `str::lines`: a carriage return goes with the newline after it, and an empty
rest is not a line. -/
def textLines : List Text :=
  let (ended, last) := splitNewlines text
  ended.map stripCarriageReturn ++ if last = [] then [] else [last]

def splitPieces : List Text :=
  (splitNewlines text).1 ++ [(splitNewlines text).2]

def joinWithNewlines (lines : List Text) : Text := List.intercalate ['\n'] lines

/-- Ended lines, each with its newline, and what follows them. -/
def unsplitNewlines (ended : List Text) (last : Text) : Text :=
  ended.flatMap (· ++ ['\n']) ++ last

theorem isWhitespace_newline : isWhitespace '\n' = true := by decide

theorem isWhitespace_carriageReturn : isWhitespace '\r' = true := by decide

theorem trimEnd_append_of_whitespace (text blank : Text)
    (isBlank : ∀ c ∈ blank, isWhitespace c = true) : trimEnd (text ++ blank) = trimEnd text := by
  induction blank using List.reverseRecOn with
  | nil => rw [append_nil]
  | append_singleton rest c ih =>
    rw [← append_assoc, trimEnd, rdropWhile_concat_pos _ _ _ (isBlank c (by simp))]
    exact ih fun other mem => isBlank other (mem_append_left _ mem)

theorem trimEnd_append_of_ne_nil (text rest : Text) (seen : trimEnd rest ≠ []) :
    trimEnd (text ++ rest) = text ++ trimEnd rest := by
  induction rest using List.reverseRecOn with
  | nil => exact absurd rfl seen
  | append_singleton rest c ih =>
    rw [← append_assoc]
    cases blank : isWhitespace c with
    | true =>
      rw [trimEnd, rdropWhile_concat_pos _ _ _ blank] at seen ⊢
      rw [trimEnd, rdropWhile_concat_pos _ _ _ blank]
      exact ih seen
    | false =>
      rw [trimEnd, trimEnd, rdropWhile_concat_neg _ _ _ (by simp [blank]),
        rdropWhile_concat_neg _ _ _ (by simp [blank]), append_assoc]

theorem trimStart_append_of_ne_nil (text rest : Text) (seen : trimStart text ≠ []) :
    trimStart (text ++ rest) = trimStart text ++ rest := by
  induction text with
  | nil => exact absurd rfl seen
  | cons c text ih =>
    simp only [trimStart, cons_append, dropWhile_cons] at seen ih ⊢
    cases blank : isWhitespace c with
    | true => simpa [blank] using ih (by simpa [blank] using seen)
    | false => simp

variable (text : Text)

theorem trimStart_eq_nil_iff : trimStart text = [] ↔ ∀ c ∈ text, isWhitespace c = true := by
  simp [trimStart]

theorem trimEnd_eq_nil_iff : trimEnd text = [] ↔ ∀ c ∈ text, isWhitespace c = true := by
  simp [trimEnd]

theorem trim_eq_nil_iff : trim text = [] ↔ ∀ c ∈ text, isWhitespace c = true := by
  constructor
  · intro empty c mem
    by_contra seen
    have kept : trimStart text ≠ [] :=
      fun none => seen ((trimStart_eq_nil_iff text).mp none c mem)
    have split := takeWhile_append_dropWhile (p := isWhitespace) (l := text)
    have inEnd : c ∈ trimStart text := by
      rw [← split, mem_append] at mem
      rcases mem with early | late
      · exact absurd (mem_takeWhile_imp early) seen
      · exact late
    exact seen ((trimEnd_eq_nil_iff (trimStart text)).mp empty c inEnd)
  · intro blank
    rw [trim, (trimStart_eq_nil_iff text).mpr blank]
    rfl

theorem trim_append_of_whitespace (text blank : Text)
    (isBlank : ∀ c ∈ blank, isWhitespace c = true) : trim (text ++ blank) = trim text := by
  by_cases seen : trimStart text = []
  · have allBlank := (trimStart_eq_nil_iff text).mp seen
    rw [(trim_eq_nil_iff text).mpr allBlank, trim_eq_nil_iff]
    intro c mem
    rcases mem_append.mp mem with early | late
    · exact allBlank c early
    · exact isBlank c late
  · rw [trim, trimStart_append_of_ne_nil text blank seen,
      trimEnd_append_of_whitespace _ blank isBlank, trim]

theorem exists_trimEnd_append :
    ∃ blank, text = trimEnd text ++ blank ∧ ∀ c ∈ blank, isWhitespace c = true :=
  ⟨text.rtakeWhile isWhitespace, rdropWhile_append_rtakeWhile.symm,
    fun _ mem => mem_rtakeWhile_imp mem⟩

theorem trim_trimEnd : trim (trimEnd text) = trim text := by
  obtain ⟨blank, split, isBlank⟩ := exists_trimEnd_append text
  conv_rhs => rw [split]
  exact (trim_append_of_whitespace _ blank isBlank).symm

theorem trim_trimStart : trim (trimStart text) = trim text := by
  simp only [trim, trimStart, dropWhile_idempotent]

theorem stripPrefix_eq_some_iff {text mark rest : Text} :
    stripPrefix text mark = some rest ↔ text = mark ++ rest := by
  simp [stripPrefix, dropPrefix?_eq_some_iff]

variable (line : Text)

theorem stripCarriageReturn_cases : (stripCarriageReturn line = line ∧ line.getLast? ≠ some '\r') ∨
    line = stripCarriageReturn line ++ ['\r'] := by
  unfold stripCarriageReturn
  split
  next ends =>
    exact .inr (dropLast_append_getLast? '\r' ends).symm
  next ends =>
    exact .inl ⟨rfl, ends⟩

theorem stripCarriageReturn_eq_self_iff :
    stripCarriageReturn line = line ↔ line.getLast? ≠ some '\r' := by
  rcases stripCarriageReturn_cases line with ⟨same, ends⟩ | short
  · exact ⟨fun _ => ends, fun _ => same⟩
  · constructor
    · intro same
      rw [same] at short
      simpa using congrArg List.length short
    · intro ends
      exact absurd (by rw [short]; simp) ends

theorem trimEnd_stripCarriageReturn : trimEnd (stripCarriageReturn line) = trimEnd line := by
  rcases stripCarriageReturn_cases line with ⟨same, -⟩ | short
  · rw [same]
  · conv_rhs => rw [short]
    exact (trimEnd_append_of_whitespace _ _ (by simp [isWhitespace_carriageReturn])).symm

theorem trim_stripCarriageReturn : trim (stripCarriageReturn line) = trim line := by
  rcases stripCarriageReturn_cases line with ⟨same, -⟩ | short
  · rw [same]
  · conv_rhs => rw [short]
    exact (trim_append_of_whitespace _ _ (by simp [isWhitespace_carriageReturn])).symm

theorem stripCarriageReturn_cons {c : Char} {line : Text} (other : c ≠ '\r') :
    stripCarriageReturn (c :: line) = c :: stripCarriageReturn line := by
  cases line with
  | nil => simp [stripCarriageReturn, other]
  | cons d rest =>
    simp only [stripCarriageReturn, getLast?_cons_cons, dropLast_cons_cons]
    split <;> rfl

theorem mem_of_mem_stripCarriageReturn (c : Char) (line : Text)
    (mem : c ∈ stripCarriageReturn line) : c ∈ line := by
  rcases stripCarriageReturn_cases line with ⟨same, -⟩ | short
  · rwa [same] at mem
  · rw [short]
    exact mem_append_left _ mem

variable (ended : List Text) (last : Text)

theorem unsplitNewlines_cons :
    unsplitNewlines (line :: ended) last = line ++ '\n' :: unsplitNewlines ended last := by
  simp [unsplitNewlines]

theorem unsplitNewlines_splitNewlines :
    unsplitNewlines (splitNewlines text).1 (splitNewlines text).2 = text := by
  induction text with
  | nil => rfl
  | cons c rest ih =>
    simp only [splitNewlines]
    split
    next newline =>
      rw [unsplitNewlines_cons, ih, newline]
      rfl
    · split
      next noneEnded =>
        rw [noneEnded] at ih
        exact congrArg (c :: ·) ih
      next line lines someEnded =>
        rw [someEnded, unsplitNewlines_cons] at ih
        rw [unsplitNewlines_cons, cons_append, ih]

theorem splitNewlines_append_newline (line rest : Text) (oneLine : '\n' ∉ line) :
    splitNewlines (line ++ '\n' :: rest) =
    (line :: (splitNewlines rest).1, (splitNewlines rest).2) := by
  induction line with
  | nil => simp [splitNewlines]
  | cons c line ih =>
    have ne : c ≠ '\n' := fun same => oneLine (by simp [same])
    rw [cons_append, splitNewlines, ih fun mem => oneLine (mem_cons_of_mem c mem)]
    simp [ne]

theorem splitNewlines_of_notMem (oneLine : '\n' ∉ line) : splitNewlines line = ([], line) := by
  induction line with
  | nil => rfl
  | cons c line ih =>
    have ne : c ≠ '\n' := fun same => oneLine (by simp [same])
    rw [splitNewlines, ih fun mem => oneLine (mem_cons_of_mem c mem)]
    simp [ne]

theorem splitNewlines_unsplitNewlines
    (oneLine : ∀ line ∈ ended, '\n' ∉ line) (lastLine : '\n' ∉ last) :
    splitNewlines (unsplitNewlines ended last) = (ended, last) := by
  induction ended with
  | nil => exact splitNewlines_of_notMem last lastLine
  | cons line ended ih =>
    rw [unsplitNewlines_cons, splitNewlines_append_newline _ _ (oneLine line (by simp)),
      ih fun other mem => oneLine other (mem_cons_of_mem line mem)]

theorem splitNewlines_lines :
    (∀ line ∈ (splitNewlines text).1, '\n' ∉ line) ∧ '\n' ∉ (splitNewlines text).2 := by
  induction text with
  | nil => simp [splitNewlines]
  | cons c rest ih =>
    simp only [splitNewlines]
    split
    · exact ⟨by simpa using ih.1, ih.2⟩
    next ne =>
      split
      next noneEnded =>
        exact ⟨by simp, by simpa [Ne.symm ne] using ih.2⟩
      next line lines someEnded =>
        rw [someEnded] at ih
        obtain ⟨first, more⟩ := forall_mem_cons.mp ih.1
        refine ⟨forall_mem_cons.mpr ⟨?_, more⟩, ih.2⟩
        exact not_mem_cons_of_ne_of_not_mem (Ne.symm ne) first

theorem textLines_unsplitNewlines
    (oneLine : ∀ line ∈ ended, '\n' ∉ line) (lastLine : '\n' ∉ last) (here : last ≠ []) :
    textLines (unsplitNewlines ended last) = ended.map stripCarriageReturn ++ [last] := by
  simp [textLines, splitNewlines_unsplitNewlines ended last oneLine lastLine, here]

theorem joinWithNewlines_append_singleton (lines : List Text) (last : Text) :
    joinWithNewlines (lines ++ [last]) = unsplitNewlines lines last := by
  induction lines with
  | nil => simp [joinWithNewlines, unsplitNewlines]
  | cons line rest ih =>
    rw [unsplitNewlines_cons, ← ih]
    cases rest <;> simp [joinWithNewlines]

end CodexFormal.Patch
