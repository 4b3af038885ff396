import Mathlib.Data.List.Basic

/-!
# UTF-16

Text as sixteen bit units and as the bytes of these units, low byte first.
Decoding replaces units that belong to no character and inverts encoding.
-/

set_option autoImplicit false

namespace CodexFormal.Foundation.Utf16

open List

def units (c : Char) : List Nat :=
  if c.toNat < 0x10000 then [c.toNat]
  else [0xD800 + (c.toNat - 0x10000) / 0x400, 0xDC00 + (c.toNat - 0x10000) % 0x400]

variable (text : List Char)

def encode : List Nat := text.flatMap units

def isHighSurrogate (unit : Nat) : Bool := 0xD800 ≤ unit && unit < 0xDC00

def isLowSurrogate (unit : Nat) : Bool := 0xDC00 ≤ unit && unit < 0xE000

def replacementCharacter : Char := Char.ofNat 0xFFFD

/-- The character of a unit that is not part of a pair. -/
def single (unit : Nat) : Char :=
  if isHighSurrogate unit || isLowSurrogate unit then replacementCharacter else Char.ofNat unit

def decodeLossy : List Nat → List Char
  | [] => []
  | [unit] => [single unit]
  | unit :: next :: rest =>
    if isHighSurrogate unit && isLowSurrogate next then
      Char.ofNat (0x10000 + (unit - 0xD800) * 0x400 + (next - 0xDC00)) :: decodeLossy rest
    else single unit :: decodeLossy (next :: rest)

variable (codeUnits : List Nat)

def toBytes : List UInt8 :=
  codeUnits.flatMap fun unit => [UInt8.ofNat (unit % 256), UInt8.ofNat (unit / 256)]

def ofBytes : List UInt8 → Option (List Nat)
  | [] => some []
  | [_] => none
  | low :: high :: rest => (ofBytes rest).map ((low.toNat + 256 * high.toNat) :: ·)

variable (c : Char)

theorem toNat_lt : c.toNat < 0x110000 := by
  rcases c.valid with low | high
  · have value : c.toNat < 0xD800 := low
    omega
  · exact high.2

theorem not_surrogate : isHighSurrogate c.toNat = false ∧ isLowSurrogate c.toNat = false := by
  rcases c.valid with low | high
  · have value : c.toNat < 0xD800 := low
    simp [isHighSurrogate, isLowSurrogate]
    omega
  · have value : 0xDFFF < c.toNat := high.1
    simp [isHighSurrogate, isLowSurrogate]
    omega

theorem single_toNat : single c.toNat = c := by
  rw [single, (not_surrogate c).1, (not_surrogate c).2, Bool.or_self, if_neg (by decide)]
  exact Char.ofNat_toNat c

theorem encode_cons_of_lt (rest : List Char) (small : c.toNat < 0x10000) :
    encode (c :: rest) = c.toNat :: encode rest := by
  unfold encode
  rw [flatMap_cons, units, if_pos small, singleton_append]

theorem toBytes_encode_ascii (rest : List Char) (ascii : c.toNat < 128) :
    toBytes (encode (c :: rest)) = UInt8.ofNat c.toNat :: 0 :: toBytes (encode rest) := by
  rw [encode_cons_of_lt c rest (by omega)]
  unfold toBytes
  rw [flatMap_cons, Nat.mod_eq_of_lt (by omega), Nat.div_eq_of_lt (by omega)]
  rfl

theorem length_toBytes : (toBytes codeUnits).length % 2 = 0 := by
  induction codeUnits with
  | nil => rfl
  | cons unit rest ih =>
    unfold toBytes at ih ⊢
    rw [flatMap_cons, length_append, length_cons, length_singleton]
    omega

theorem units_lt : ∀ unit ∈ units c, unit < 0x10000 := by
  have bound := toNat_lt c
  intro unit mem
  unfold units at mem
  split at mem
  · rw [mem_singleton.mp mem]
    assumption
  · simp only [mem_cons, not_mem_nil, or_false] at mem
    omega

theorem decodeLossy_encode : decodeLossy (encode text) = text := by
  induction text with
  | nil => rfl
  | cons c rest ih =>
    unfold encode at ih ⊢
    rw [flatMap_cons]
    by_cases small : c.toNat < 0x10000
    · rw [units, if_pos small, singleton_append]
      cases tail : rest.flatMap units with
      | nil =>
        rw [tail] at ih
        rw [decodeLossy, single_toNat c, ← ih]
        rfl
      | cons next more =>
        rw [tail] at ih
        rw [decodeLossy, (not_surrogate c).1, Bool.false_and, if_neg (by decide),
          single_toNat c, ih]
    · have bound := toNat_lt c
      have high : isHighSurrogate (0xD800 + (c.toNat - 0x10000) / 0x400) = true := by
        simp [isHighSurrogate]
        omega
      have low : isLowSurrogate (0xDC00 + (c.toNat - 0x10000) % 0x400) = true := by
        simp [isLowSurrogate]
        omega
      rw [units, if_neg small, cons_append, singleton_append, decodeLossy, high, low,
        Bool.and_self, if_pos rfl, ih]
      have value : 0x10000 + (0xD800 + (c.toNat - 0x10000) / 0x400 - 0xD800) * 0x400 +
          (0xDC00 + (c.toNat - 0x10000) % 0x400 - 0xDC00) = c.toNat := by
        omega
      rw [value, Char.ofNat_toNat]

theorem ofBytes_toBytes (bounded : ∀ unit ∈ codeUnits, unit < 0x10000) :
    ofBytes (toBytes codeUnits) = some codeUnits := by
  induction codeUnits with
  | nil => rfl
  | cons unit rest ih =>
    have small := bounded unit mem_cons_self
    have tail := ih fun other mem => bounded other (mem_cons_of_mem unit mem)
    unfold toBytes at tail ⊢
    rw [flatMap_cons, cons_append, singleton_append, ofBytes, tail,
      Option.map_some, UInt8.toNat_ofNat', UInt8.toNat_ofNat']
    congr 2
    omega

theorem ofBytes_toBytes_encode : ofBytes (toBytes (encode text)) = some (encode text) := by
  refine ofBytes_toBytes _ fun unit mem => ?_
  obtain ⟨c, _, unitOf⟩ := mem_flatMap.mp mem
  exact units_lt c unit unitOf

end CodexFormal.Foundation.Utf16
