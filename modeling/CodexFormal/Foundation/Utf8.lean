import Mathlib.Data.List.Basic

/-!
# UTF-8

The encoding of characters as one to four bytes, and decoding from the front, which
tells an input that ends inside a character from one that no character begins like.
-/

set_option autoImplicit false

namespace CodexFormal.Foundation.Utf8

open List
open String (utf8EncodeChar)

variable (text : List Char)

def encode : List UInt8 := text.flatMap utf8EncodeChar

inductive Head where
  | char (c : Char) (rest : List UInt8)
  | incomplete
  | invalid (errorLen : Nat)

def width (first : UInt8) : Nat :=
  if first.toNat < 0x80 then 1
  else if 0xC2 ≤ first.toNat ∧ first.toNat ≤ 0xDF then 2
  else if 0xE0 ≤ first.toNat ∧ first.toNat ≤ 0xEF then 3
  else if 0xF0 ≤ first.toNat ∧ first.toNat ≤ 0xF4 then 4
  else 0

variable (byte : UInt8)

def isContinuation : Prop := 0x80 ≤ byte.toNat ∧ byte.toNat ≤ 0xBF

instance (byte : UInt8) : Decidable (isContinuation byte) :=
  inferInstanceAs (Decidable (_ ∧ _))

/-- The second byte also excludes overlong forms, surrogates and values past the last one. -/
def secondInRange (first second : UInt8) : Prop :=
  (if first.toNat = 0xE0 then 0xA0 else if first.toNat = 0xF0 then 0x90 else 0x80) ≤
      second.toNat ∧
    second.toNat ≤
      if first.toNat = 0xED then 0x9F else if first.toNat = 0xF4 then 0x8F else 0xBF

instance (first second : UInt8) : Decidable (secondInRange first second) :=
  inferInstanceAs (Decidable (_ ∧ _))

/-- The value of a character from its leading bits and the bytes after the first. -/
def extend (value : Nat) (byte : UInt8) : Nat := value * 64 + (byte.toNat - 0x80)

def decodeFourth (value : Nat) : List UInt8 → Head
  | [] => .incomplete
  | fourth :: rest =>
    if isContinuation fourth then .char (.ofNat (extend value fourth)) rest else .invalid 3

def decodeThird (last : Bool) (value : Nat) : List UInt8 → Head
  | [] => .incomplete
  | third :: rest =>
    if isContinuation third then
      if last then .char (.ofNat (extend value third)) rest
      else decodeFourth (extend value third) rest
    else .invalid 2

def decodeHead : List UInt8 → Head
  | [] => .incomplete
  | [first] =>
    match width first with
    | 0 => .invalid 1
    | 1 => .char (.ofNat first.toNat) []
    | _ => .incomplete
  | first :: second :: rest =>
    match width first with
    | 0 => .invalid 1
    | 1 => .char (.ofNat first.toNat) (second :: rest)
    | 2 =>
      if secondInRange first second then
        .char (.ofNat (extend (first.toNat - 0xC0) second)) rest
      else .invalid 1
    | 3 =>
      if secondInRange first second then
        decodeThird true (extend (first.toNat - 0xE0) second) rest
      else .invalid 1
    | _ =>
      if secondInRange first second then
        decodeThird false (extend (first.toNat - 0xF0) second) rest
      else .invalid 1

variable {value : Nat}

theorem toNat_ofNat_of_lt (small : value < 256) : (UInt8.ofNat value).toNat = value := by
  rw [UInt8.toNat_ofNat']
  omega

section Widths

variable {first second third fourth : UInt8} {rest : List UInt8}

theorem decodeHead_one (isWidth : width first = 1) :
    decodeHead (first :: rest) = .char (.ofNat first.toNat) rest := by
  cases rest <;> simp only [decodeHead, isWidth]

theorem decodeHead_two (isWidth : width first = 2) (inRange : secondInRange first second) :
    decodeHead (first :: second :: rest) =
    .char (.ofNat (extend (first.toNat - 0xC0) second)) rest := by
  simp only [decodeHead, isWidth, if_pos inRange]

theorem decodeHead_three (isWidth : width first = 3) (inRange : secondInRange first second)
    (continues : isContinuation third) : decodeHead (first :: second :: third :: rest) =
    .char (.ofNat (extend (extend (first.toNat - 0xE0) second) third)) rest := by
  simp only [decodeHead, isWidth, if_pos inRange, decodeThird, if_pos continues, if_true]

theorem decodeHead_four (isWidth : width first = 4) (inRange : secondInRange first second)
    (continues : isContinuation third) (ends : isContinuation fourth) :
    decodeHead (first :: second :: third :: fourth :: rest) =
    .char (.ofNat (extend (extend (extend (first.toNat - 0xF0) second) third) fourth)) rest := by
  simp only [decodeHead, isWidth, if_pos inRange, decodeThird, if_pos continues,
    Bool.false_eq_true, if_false, decodeFourth, if_pos ends]

end Widths

variable (c : Char)

theorem toNat_continuation : (UInt8.ofNat (value % 64 + 0x80)).toNat = value % 64 + 0x80 :=
  toNat_ofNat_of_lt (by omega)

theorem isContinuation_ofNat : isContinuation (.ofNat (value % 64 + 0x80)) := by
  unfold isContinuation
  rw [toNat_continuation]
  omega

theorem extend_ofNat (high : Nat) : extend high (.ofNat (value % 64 + 0x80)) =
    high * 64 + value % 64 := by
  unfold extend
  rw [toNat_continuation]
  omega

theorem decodeHead_utf8EncodeChar (rest : List UInt8) :
    decodeHead (utf8EncodeChar c ++ rest) = .char c rest := by
  have valid : c.toNat < 0xD800 ∨ (0xDFFF < c.toNat ∧ c.toNat < 0x110000) := c.valid
  simp only [utf8EncodeChar, Char.toNat_val]
  split
  next small =>
    have first := toNat_ofNat_of_lt (by omega : c.toNat < 256)
    have isWidth : width (.ofNat c.toNat) = 1 := by
      unfold width
      rw [first, if_pos (by omega)]
    rw [cons_append, nil_append, decodeHead_one isWidth, first, Char.ofNat_toNat]
  · split
    · have first := toNat_ofNat_of_lt (by omega : c.toNat / 64 % 32 + 0xC0 < 256)
      have isWidth : width (.ofNat (c.toNat / 64 % 32 + 0xC0)) = 2 := by
        unfold width
        rw [first, if_neg (by omega), if_pos (by omega)]
      refine (decodeHead_two isWidth ?_).trans ?_
      · unfold secondInRange
        rw [first, toNat_continuation]
        split_ifs <;> omega
      · rw [extend_ofNat, first, show (c.toNat / 64 % 32 + 0xC0 - 0xC0) * 64 + c.toNat % 64 =
          c.toNat by omega, Char.ofNat_toNat]
        rfl
    · split
      · have first := toNat_ofNat_of_lt (by omega : c.toNat / 4096 % 16 + 0xE0 < 256)
        have isWidth : width (.ofNat (c.toNat / 4096 % 16 + 0xE0)) = 3 := by
          unfold width
          rw [first, if_neg (by omega), if_neg (by omega), if_pos (by omega)]
        refine (decodeHead_three isWidth ?_ isContinuation_ofNat).trans ?_
        · unfold secondInRange
          rw [first, toNat_continuation]
          split_ifs <;> omega
        · rw [extend_ofNat, extend_ofNat, first, show ((c.toNat / 4096 % 16 + 0xE0 - 0xE0) * 64 +
            c.toNat / 64 % 64) * 64 + c.toNat % 64 = c.toNat by omega, Char.ofNat_toNat]
          rfl
      · have first := toNat_ofNat_of_lt (by omega : c.toNat / 262144 % 8 + 0xF0 < 256)
        have isWidth : width (.ofNat (c.toNat / 262144 % 8 + 0xF0)) = 4 := by
          unfold width
          rw [first, if_neg (by omega), if_neg (by omega), if_neg (by omega), if_pos (by omega)]
        refine (decodeHead_four isWidth ?_ isContinuation_ofNat isContinuation_ofNat).trans ?_
        · unfold secondInRange
          rw [first, toNat_continuation]
          split_ifs <;> omega
        · rw [extend_ofNat, extend_ofNat, extend_ofNat, first,
            show (((c.toNat / 262144 % 8 + 0xF0 - 0xF0) * 64 + c.toNat / 4096 % 64) * 64 +
            c.toNat / 64 % 64) * 64 + c.toNat % 64 = c.toNat by omega, Char.ofNat_toNat]
          rfl

theorem toNat_ofNat_of_valid (valid : value.isValidChar) : (Char.ofNat value).toNat = value := by
  unfold Char.ofNat
  rw [dif_pos valid]
  rfl

theorem ofNat_eq_of_toNat {value : Nat} (same : value = byte.toNat) : UInt8.ofNat value = byte := by
  rw [same, UInt8.ofNat_toNat]

section Encodings

variable {first second third fourth : UInt8}

theorem utf8EncodeChar_one (small : first.toNat < 0x80) :
    utf8EncodeChar (.ofNat first.toNat) = [first] := by
  have value := toNat_ofNat_of_valid (.inl (by omega) : first.toNat.isValidChar)
  simp [utf8EncodeChar, Char.toNat_val, value, Nat.le_of_lt_succ small]

/-- No overlong form, no surrogate and nothing past the last character. -/
theorem secondInRange_bounds (inRange : secondInRange first second) :
    (0x80 ≤ second.toNat ∧ second.toNat ≤ 0xBF) ∧ (first.toNat = 0xE0 → 0xA0 ≤ second.toNat) ∧
    (first.toNat = 0xED → second.toNat ≤ 0x9F) ∧ (first.toNat = 0xF0 → 0x90 ≤ second.toNat) ∧
    (first.toNat = 0xF4 → second.toNat ≤ 0x8F) := by
  unfold secondInRange at inRange
  split_ifs at inRange <;> omega

theorem utf8EncodeChar_two (isFirst : 0xC2 ≤ first.toNat ∧ first.toNat ≤ 0xDF)
    (inRange : secondInRange first second) :
    utf8EncodeChar (.ofNat (extend (first.toNat - 0xC0) second)) = [first, second] := by
  have bounds := secondInRange_bounds inRange
  have isValue : extend (first.toNat - 0xC0) second =
    (first.toNat - 0xC0) * 64 + (second.toNat - 0x80) := rfl
  have value := toNat_ofNat_of_valid
    (.inl (by omega) : (extend (first.toNat - 0xC0) second).isValidChar)
  simp only [utf8EncodeChar, Char.toNat_val, value]
  rw [if_neg (by omega), if_pos (by omega), ofNat_eq_of_toNat first (by omega),
    ofNat_eq_of_toNat second (by omega)]

theorem utf8EncodeChar_three (isFirst : 0xE0 ≤ first.toNat ∧ first.toNat ≤ 0xEF)
    (inRange : secondInRange first second) (continues : isContinuation third) :
    utf8EncodeChar (.ofNat (extend (extend (first.toNat - 0xE0) second) third)) =
    [first, second, third] := by
  unfold isContinuation at continues
  have bounds := secondInRange_bounds inRange
  have isValue : extend (extend (first.toNat - 0xE0) second) third =
    ((first.toNat - 0xE0) * 64 + (second.toNat - 0x80)) * 64 + (third.toNat - 0x80) := rfl
  have value := toNat_ofNat_of_valid (by unfold Nat.isValidChar; omega :
      (extend (extend (first.toNat - 0xE0) second) third).isValidChar)
  simp only [utf8EncodeChar, Char.toNat_val, value]
  rw [if_neg (by omega), if_neg (by omega), if_pos (by omega),
    ofNat_eq_of_toNat first (by omega), ofNat_eq_of_toNat second (by omega),
    ofNat_eq_of_toNat third (by omega)]

theorem utf8EncodeChar_four (isFirst : 0xF0 ≤ first.toNat ∧ first.toNat ≤ 0xF4)
    (inRange : secondInRange first second) (continues : isContinuation third)
    (ends : isContinuation fourth) :
    utf8EncodeChar (.ofNat (extend (extend (extend (first.toNat - 0xF0) second) third) fourth)) =
    [first, second, third, fourth] := by
  unfold isContinuation at continues ends
  have bounds := secondInRange_bounds inRange
  have isValue : extend (extend (extend (first.toNat - 0xF0) second) third) fourth =
    (((first.toNat - 0xF0) * 64 + (second.toNat - 0x80)) * 64 + (third.toNat - 0x80)) * 64 +
    (fourth.toNat - 0x80) := rfl
  have value := toNat_ofNat_of_valid (by unfold Nat.isValidChar; omega :
      (extend (extend (extend (first.toNat - 0xF0) second) third) fourth).isValidChar)
  simp only [utf8EncodeChar, Char.toNat_val, value]
  rw [if_neg (by omega), if_neg (by omega), if_neg (by omega),
    ofNat_eq_of_toNat first (by omega), ofNat_eq_of_toNat second (by omega),
    ofNat_eq_of_toNat third (by omega), ofNat_eq_of_toNat fourth (by omega)]

end Encodings

theorem width_cases (first : UInt8) : (width first = 0) ∨ (width first = 1 ∧ first.toNat < 0x80) ∨
    (width first = 2 ∧ 0xC2 ≤ first.toNat ∧ first.toNat ≤ 0xDF) ∨
    (width first = 3 ∧ 0xE0 ≤ first.toNat ∧ first.toNat ≤ 0xEF) ∨
    (width first = 4 ∧ 0xF0 ≤ first.toNat ∧ first.toNat ≤ 0xF4) := by
  unfold width
  split_ifs <;> simp_all

variable (bytes : List UInt8)

def EndsInside : Prop :=
  ∃ c, bytes <+: utf8EncodeChar c ∧ bytes.length < (utf8EncodeChar c).length

theorem exists_second (first : UInt8) : ∃ second, secondInRange first second := by
  by_cases overlong : first.toNat = 0xE0
  · exact ⟨0xA0, by unfold secondInRange; rw [overlong]; decide⟩
  · by_cases high : first.toNat = 0xF0
    · exact ⟨0x90, by unfold secondInRange; rw [high]; decide⟩
    · refine ⟨0x80, ?_⟩
      unfold secondInRange
      rw [if_neg overlong, if_neg high]
      refine ⟨Nat.le_refl _, ?_⟩
      split_ifs <;> decide

theorem isContinuation_lowest : isContinuation 0x80 := by decide

/-- What the head of a byte list says about it. -/
def HeadDescribes : Head → Prop
  | .char c rest => bytes = utf8EncodeChar c ++ rest
  | .incomplete => EndsInside bytes
  | .invalid _ => True

theorem endsInside_of_utf8EncodeChar {bytes after : List UInt8} {c : Char}
    (isEncoded : utf8EncodeChar c = bytes ++ after) (more : after ≠ []) : EndsInside bytes := by
  have pos := length_pos_iff.mpr more
  refine ⟨c, ⟨after, isEncoded.symm⟩, ?_⟩
  rw [isEncoded, length_append]
  omega

theorem utf8EncodeChar_append_describes {bytes rest : List UInt8} {c : Char}
    (isEncoded : utf8EncodeChar c = bytes) : HeadDescribes (bytes ++ rest) (.char c rest) :=
  isEncoded ▸ rfl

theorem decodeThird_describes {first second : UInt8}
    (isFirst : 0xE0 ≤ first.toNat ∧ first.toNat ≤ 0xEF) (inRange : secondInRange first second)
    (rest : List UInt8) : HeadDescribes (first :: second :: rest)
    (decodeThird true (extend (first.toNat - 0xE0) second) rest) := by
  cases rest with
  | nil =>
    exact endsInside_of_utf8EncodeChar
      (utf8EncodeChar_three isFirst inRange isContinuation_lowest) (cons_ne_nil _ _)
  | cons third rest =>
    rw [decodeThird]
    split
    next continues =>
      exact utf8EncodeChar_append_describes (utf8EncodeChar_three isFirst inRange continues)
    · trivial

theorem decodeFourth_describes {first second : UInt8}
    (isFirst : 0xF0 ≤ first.toNat ∧ first.toNat ≤ 0xF4) (inRange : secondInRange first second)
    (rest : List UInt8) : HeadDescribes (first :: second :: rest)
    (decodeThird false (extend (first.toNat - 0xF0) second) rest) := by
  cases rest with
  | nil =>
    exact endsInside_of_utf8EncodeChar (utf8EncodeChar_four isFirst inRange
      isContinuation_lowest isContinuation_lowest) (cons_ne_nil _ _)
  | cons third rest =>
    rw [decodeThird]
    split
    next continues =>
      cases rest with
      | nil =>
        exact endsInside_of_utf8EncodeChar
          (utf8EncodeChar_four isFirst inRange continues isContinuation_lowest) (cons_ne_nil _ _)
      | cons fourth rest =>
        rw [if_neg Bool.false_ne_true, decodeFourth]
        split
        next ends =>
          exact utf8EncodeChar_append_describes (utf8EncodeChar_four isFirst inRange continues ends)
        · trivial
    · trivial

theorem decodeHead_describes (ne : bytes ≠ []) : HeadDescribes bytes (decodeHead bytes) := by
  obtain ⟨first, rest, rfl⟩ := exists_cons_of_ne_nil ne
  obtain ⟨lowest, lowestInRange⟩ := exists_second first
  rcases width_cases first with isWidth | ⟨isWidth, isFirst⟩ | ⟨isWidth, isFirst⟩ |
    ⟨isWidth, isFirst⟩ | ⟨isWidth, isFirst⟩
  · cases rest <;> simp only [decodeHead, isWidth] <;> trivial
  · rw [decodeHead_one isWidth]
    exact utf8EncodeChar_append_describes (utf8EncodeChar_one isFirst)
  · cases rest with
    | nil =>
      simp only [decodeHead, isWidth]
      exact endsInside_of_utf8EncodeChar
        (utf8EncodeChar_two isFirst lowestInRange) (cons_ne_nil _ _)
    | cons second rest =>
      simp only [decodeHead, isWidth]
      split
      next inRange =>
        exact utf8EncodeChar_append_describes (utf8EncodeChar_two isFirst inRange)
      · trivial
  · cases rest with
    | nil =>
      simp only [decodeHead, isWidth]
      exact endsInside_of_utf8EncodeChar
        (utf8EncodeChar_three isFirst lowestInRange isContinuation_lowest) (cons_ne_nil _ _)
    | cons second rest =>
      simp only [decodeHead, isWidth]
      split
      next inRange =>
        exact decodeThird_describes isFirst inRange rest
      · trivial
  · cases rest with
    | nil =>
      simp only [decodeHead, isWidth]
      exact endsInside_of_utf8EncodeChar (utf8EncodeChar_four isFirst lowestInRange
        isContinuation_lowest isContinuation_lowest) (cons_ne_nil _ _)
    | cons second rest =>
      simp only [decodeHead, isWidth]
      split
      next inRange =>
        exact decodeFourth_describes isFirst inRange rest
      · trivial

structure Utf8Error where
  validUpTo : Nat
  errorLen : Option Nat
deriving DecidableEq, Repr

/-- The characters at the front and the bytes after them. -/
def validPrefix : Nat → List UInt8 → List Char × List UInt8
  | 0, bytes => ([], bytes)
  | fuel + 1, bytes =>
    match decodeHead bytes with
    | .char c rest =>
      let later := validPrefix fuel rest
      (c :: later.1, later.2)
    | _ => ([], bytes)

/-- Every character takes a byte, so as many rounds as there are bytes are enough. -/
def fromUtf8 : Except Utf8Error (List Char) :=
  let decoded := validPrefix bytes.length bytes
  match decoded.2 with
  | [] => .ok decoded.1
  | first :: rest =>
    .error
      { validUpTo := bytes.length - (first :: rest).length
        errorLen :=
          match decodeHead (first :: rest) with
          | .invalid errorLen => some errorLen
          | _ => none }

@[simp]
theorem encode_nil : encode [] = [] := rfl

@[simp]
theorem encode_cons : encode (c :: text) = utf8EncodeChar c ++ encode text := by
  simp [encode]

@[simp]
theorem encode_append (first second : List Char) :
    encode (first ++ second) = encode first ++ encode second := by
  simp [encode]

/-- Bytes that begin no character. -/
def StartsNoChar : Prop :=
  ∀ c rest, decodeHead bytes ≠ .char c rest

theorem validPrefix_spec (fuel : Nat) (bytes : List UInt8) (enough : bytes.length ≤ fuel) :
    bytes = encode (validPrefix fuel bytes).1 ++ (validPrefix fuel bytes).2 ∧
    StartsNoChar (validPrefix fuel bytes).2 := by
  induction fuel generalizing bytes with
  | zero =>
    have empty := length_eq_zero_iff.mp (Nat.le_zero.mp enough)
    subst empty
    exact ⟨rfl, fun _ _ isChar => by cases isChar⟩
  | succ fuel ih =>
    unfold validPrefix
    cases isHead : decodeHead bytes with
    | char c rest =>
      have ne : bytes ≠ [] := by
        rintro rfl
        cases isHead
      have described := decodeHead_describes bytes ne
      rw [isHead] at described
      have isBytes : bytes = utf8EncodeChar c ++ rest := described
      have pos := length_pos_of_ne_nil (String.utf8EncodeChar_ne_nil (c := c))
      rw [isBytes, length_append] at enough
      obtain ⟨isRest, stops⟩ := ih rest (by omega)
      refine ⟨?_, stops⟩
      simp only [encode_cons, append_assoc]
      rw [← isRest]
      exact isBytes
    | incomplete => exact ⟨rfl, fun c rest isChar => by rw [isHead] at isChar; cases isChar⟩
    | invalid errorLen =>
      exact ⟨rfl, fun c rest isChar => by rw [isHead] at isChar; cases isChar⟩

theorem encode_append_inj (first second : List Char) (after others : List UInt8)
    (same : encode first ++ after = encode second ++ others) (stops : StartsNoChar after)
    (otherStops : StartsNoChar others) : first = second ∧ after = others := by
  induction first generalizing second with
  | nil =>
    cases second with
    | nil => exact ⟨rfl, same⟩
    | cons c rest =>
      rw [encode_nil, nil_append, encode_cons, append_assoc] at same
      exact absurd (same ▸ decodeHead_utf8EncodeChar c _) (stops c _)
  | cons c rest ih =>
    cases second with
    | nil =>
      rw [encode_nil, nil_append, encode_cons, append_assoc] at same
      exact absurd (same ▸ decodeHead_utf8EncodeChar c _) (otherStops c _)
    | cons other left =>
      rw [encode_cons, encode_cons, append_assoc, append_assoc] at same
      have heads := congrArg decodeHead same
      rw [decodeHead_utf8EncodeChar, decodeHead_utf8EncodeChar] at heads
      obtain ⟨rfl, sameRest⟩ := Head.char.inj heads
      obtain ⟨rfl, sameAfter⟩ := ih left sameRest
      exact ⟨rfl, sameAfter⟩

theorem startsNoChar_nil : StartsNoChar [] := fun _ _ isChar => by cases isChar

/-- What decoding a byte list says about it. -/
def Decoded : Except Utf8Error (List Char) → Prop
  | .ok text => bytes = encode text
  | .error failure => ∃ text rest, bytes = encode text ++ rest ∧ rest ≠ [] ∧
      StartsNoChar rest ∧ failure.validUpTo = (encode text).length ∧
      (failure.errorLen = none → EndsInside rest)

theorem fromUtf8_decoded : Decoded bytes (fromUtf8 bytes) := by
  obtain ⟨isBytes, stops⟩ := validPrefix_spec bytes.length bytes Nat.le.refl
  unfold fromUtf8
  simp only
  cases isRest : (validPrefix bytes.length bytes).2 with
  | nil =>
    rw [isRest, append_nil] at isBytes
    exact isBytes
  | cons first rest =>
    rw [isRest] at isBytes stops
    refine ⟨_, first :: rest, isBytes, cons_ne_nil _ _, stops, ?_, ?_⟩
    · have lengths := congrArg List.length isBytes
      rw [length_append] at lengths
      simp only
      omega
    · intro noLength
      have described := decodeHead_describes (first :: rest) (cons_ne_nil _ _)
      cases isHead : decodeHead (first :: rest) with
      | char c later => exact absurd isHead (stops c later)
      | incomplete =>
        rw [isHead] at described
        exact described
      | invalid errorLen =>
        rw [isHead] at noLength
        cases noLength

theorem fromUtf8_encode : fromUtf8 (encode text) = .ok text := by
  have read := fromUtf8_decoded (encode text)
  cases res : fromUtf8 (encode text) with
  | ok other =>
    rw [res] at read
    have same : encode text ++ [] = encode other ++ [] := by
      rw [append_nil, append_nil]
      exact read
    rw [(encode_append_inj text other [] [] same startsNoChar_nil startsNoChar_nil).1]
  | error failure =>
    rw [res] at read
    obtain ⟨other, rest, isBytes, ne, stops, _⟩ := read
    have same : encode text ++ [] = encode other ++ rest := by
      rw [append_nil]
      exact isBytes
    exact absurd (encode_append_inj text other [] rest same startsNoChar_nil stops).2.symm ne

end CodexFormal.Foundation.Utf8
