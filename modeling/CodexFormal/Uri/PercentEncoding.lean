import CodexFormal.Foundation.AsciiCase
import CodexFormal.Uri.PathUri

/-!
# Percent encoding

A URL library over text: the characters that would end a segment or a path are
escaped as two hexadecimal digits, and a host is its lower case.
-/

set_option autoImplicit false

namespace CodexFormal.Uri.PercentEncoding

open Foundation List
open Patch (Text)

def escaped : Text := "\x00 \"#%/<>?\\^\x7b\x7d".toList

def hexDigit (n : Nat) : Char := "0123456789ABCDEF".toList.getD n '0'

def hexValue (c : Char) : Option Nat := "0123456789abcdef".toList.findIdx? (· == c.toLower)

def encodeChar (c : Char) : Text :=
  if c ∈ escaped then ['%', hexDigit (c.toNat / 16), hexDigit (c.toNat % 16)] else [c]

def encode (text : Text) : Text := text.flatMap encodeChar

def unescape (high low : Char) : Option Char :=
  match hexValue high, hexValue low with
  | some first, some second =>
    if 16 * first + second < 128 then some (Char.ofNat (16 * first + second)) else none
  | _, _ => none

def decode : Text → Text
  | '%' :: high :: low :: rest =>
    match unescape high low with
    | some c => c :: decode rest
    | none => '%' :: decode (high :: low :: rest)
  | c :: rest => c :: decode rest
  | [] => []

def base64Digit (n : Nat) : Char :=
  "ABCDEFGHIJKLMNOPQRSTUVWXYZabcdefghijklmnopqrstuvwxyz0123456789-_".toList.getD n 'A'

def encodeBase64 : Bytes → Text
  | first :: second :: third :: rest =>
    base64Digit (first.toNat / 4) :: base64Digit (first.toNat % 4 * 16 + second.toNat / 16) ::
      base64Digit (second.toNat % 16 * 4 + third.toNat / 64) ::
      base64Digit (third.toNat % 64) :: encodeBase64 rest
  | [first, second] =>
    [base64Digit (first.toNat / 4), base64Digit (first.toNat % 4 * 16 + second.toNat / 16),
      base64Digit (second.toNat % 16 * 4)]
  | [first] => [base64Digit (first.toNat / 4), base64Digit (first.toNat % 4 * 16)]
  | [] => []

variable (c : Char) (rest : Text)

theorem decode_plain (plain : c ≠ '%') : decode (c :: rest) = c :: decode rest := by
  rw [decode]
  rintro high low more rfl
  exact absurd rfl plain

theorem decode_encodeChar : decode (encodeChar c ++ rest) = c :: decode rest := by
  unfold encodeChar
  split
  next isEscaped =>
    have all : (escaped.all fun c =>
      unescape (hexDigit (c.toNat / 16)) (hexDigit (c.toNat % 16)) == some c) = true := by decide
    have unescaped := beq_iff_eq.mp (all_eq_true.mp all c isEscaped)
    simp [decode, unescaped]
  next isPlain =>
    refine decode_plain c rest ?_
    rintro rfl
    exact isPlain (by decide)

variable (text : Text)

theorem decode_encode : decode (encode text) = text := by
  induction text with
  | nil => rfl
  | cons c rest ih =>
    unfold encode at ih ⊢
    rw [flatMap_cons, decode_encodeChar, ih]

variable (seg : Text)

theorem decode_eq_nil : decode seg = [] ↔ seg = [] := by
  constructor
  · intro empty
    unfold decode at empty
    split at empty
    · split at empty <;> cases empty
    · cases empty
    · rfl
  · rintro rfl
    rfl

theorem lowercase_cons : lowercase (c :: text) = c.toLower :: lowercase text :=
  rfl

theorem lowercase_decode : lowercase (decode (lowercase seg)) = lowercase (decode seg) := by
  fun_induction decode seg with
  | case1 high low rest c unescaped ih =>
    have lowered : unescape high.toLower low.toLower = some c := by
      simpa only [unescape, hexValue, AsciiCase.toLower_toLower] using unescaped
    rw [lowercase_cons, lowercase_cons, lowercase_cons]
    simp only [show '%'.toLower = '%' from rfl, decode, lowered]
    rw [lowercase_cons, lowercase_cons, ih]
  | case2 high low rest unescaped ih =>
    have lowered : unescape high.toLower low.toLower = none := by
      simpa only [unescape, hexValue, AsciiCase.toLower_toLower] using unescaped
    rw [lowercase_cons, lowercase_cons, lowercase_cons]
    simp only [show '%'.toLower = '%' from rfl, decode, lowered]
    rw [lowercase_cons, lowercase_cons, ← ih]
    rfl
  | case3 c rest notEscape ih =>
    rw [lowercase_cons, lowercase_cons, decode, lowercase_cons, AsciiCase.toLower_toLower, ih]
    intro high low more percent digits
    obtain ⟨_, others, rfl, _, othersLower⟩ := map_eq_cons_iff.mp digits
    obtain ⟨_, _, rfl, _, _⟩ := map_eq_cons_iff.mp othersLower
    exact notEscape _ _ _ ((AsciiCase.toLower_eq_iff c '%' rfl).mp percent) rfl
  | case4 => rfl

theorem decode_lowercase (first second : Text) (same : lowercase first = lowercase second) :
    lowercase (decode first) = lowercase (decode second) := by
  rw [← lowercase_decode first, same, lowercase_decode second]

theorem encodeChar_letter (letter : Char) (alpha : letter.isAlpha = true) :
    encodeChar letter = [letter] := by
  refine if_neg fun isEscaped => ?_
  have all : (escaped.all fun c => !c.isAlpha) = true := by decide
  have notAlpha := all_eq_true.mp all letter isEscaped
  rw [alpha] at notAlpha
  cases notAlpha

theorem encode_drive (letter : Char) (alpha : letter.isAlpha = true) :
    encode [letter, ':'] = [letter, ':'] := by
  have colon : encodeChar ':' = [':'] := by decide
  simp [encode, encodeChar_letter letter alpha, colon]

theorem isWindowsDriveUriSegment_cases (drive : isWindowsDriveUriSegment seg = true) :
    ∃ letter rest, letter.isAlpha = true ∧ seg = letter :: rest ∧
    (rest = [':'] ∨ rest = ['%', '3', 'A'] ∨ rest = ['%', '3', 'a']) := by
  unfold isWindowsDriveUriSegment at drive
  split at drive
  · exact ⟨_, _, drive, rfl, .inl rfl⟩
  · exact ⟨_, _, drive, rfl, .inr (.inl rfl)⟩
  · exact ⟨_, _, drive, rfl, .inr (.inr rfl)⟩
  · cases drive

theorem encode_cons : encode (c :: rest) = encodeChar c ++ encode rest :=
  flatMap_cons

theorem eq_colon_of_encode (colon : encode text = [':'] ∨ encode text = ['%', '3', 'A'] ∨
    encode text = ['%', '3', 'a']) : text = [':'] := by
  cases text with
  | nil => rcases colon with colon | colon | colon <;> cases colon
  | cons c rest =>
    rw [encode_cons] at colon
    by_cases isEscaped : c ∈ escaped
    · have all : (escaped.all fun c => decide (hexDigit (c.toNat / 16) = '3' →
        hexDigit (c.toNat % 16) ≠ 'A' ∧ hexDigit (c.toNat % 16) ≠ 'a')) = true := by decide
      have notColon := of_decide_eq_true (all_eq_true.mp all c isEscaped)
      simp only [encodeChar, if_pos isEscaped, cons_append, nil_append, List.cons.injEq] at colon
      rcases colon with ⟨percent, _⟩ | ⟨_, high, low, _⟩ | ⟨_, high, low, _⟩
      · cases percent
      · exact absurd low (notColon high).1
      · exact absurd low (notColon high).2
    · rw [encodeChar, if_neg isEscaped, singleton_append] at colon
      have notPercent : c ≠ '%' := fun percent => isEscaped (percent ▸ by decide)
      rcases colon with colon | colon | colon
      · rw [List.cons.injEq] at colon
        have read := decode_encode rest
        rw [colon.2] at read
        rw [colon.1, ← read]
        rfl
      · exact absurd (List.cons.inj colon).1 notPercent
      · exact absurd (List.cons.inj colon).1 notPercent

theorem drive_of_encode (drive : isWindowsDriveUriSegment (encode text) = true) :
    ∃ letter, text = [letter, ':'] := by
  obtain ⟨letter, tail, alpha, shape, colon⟩ := isWindowsDriveUriSegment_cases _ drive
  cases text with
  | nil => cases shape
  | cons c rest =>
    rw [encode_cons] at shape
    by_cases isEscaped : c ∈ escaped
    · rw [encodeChar, if_pos isEscaped, cons_append] at shape
      rw [← (List.cons.inj shape).1] at alpha
      cases alpha
    · rw [encodeChar, if_neg isEscaped, singleton_append, List.cons.injEq] at shape
      rw [← shape.2] at colon
      exact ⟨c, by rw [eq_colon_of_encode rest colon]⟩

def urlLibrary : UrlLibrary where
  encodeSegment := encode
  decodeSegment := decode
  parseHost host := if host = [] then none else some (lowercase host)
  encodeBase64 := encodeBase64
  decode_encode := decode_encode
  decode_eq_nil := decode_eq_nil
  decode_lowercase := decode_lowercase
  encode_drive := encode_drive
  drive_of_encode := drive_of_encode

end CodexFormal.Uri.PercentEncoding
