import Mathlib.Data.List.Infix

/-!
# ASCII case

What changing the case of a character leaves as it is.
-/

set_option autoImplicit false

namespace CodexFormal.Foundation.AsciiCase

open Bool

variable (c : Char)

theorem toLower_toNat :
    c.toLower.toNat = if 65 ≤ c.toNat ∧ c.toNat ≤ 90 then c.toNat + 32 else c.toNat := by
  unfold Char.toLower
  split
  next upper =>
    have low : 65 ≤ c.val.toNat := upper.1
    have high : c.val.toNat ≤ 90 := upper.2
    rw [if_pos ⟨low, high⟩]
    have shifted : (c.val + ('a'.val - 'A'.val)).toNat = c.val.toNat + 32 := by
      rw [UInt32.toNat_add, show ('a'.val - 'A'.val).toNat = 32 from rfl]
      omega
    exact shifted
  next notUpper =>
    rw [if_neg]
    exact notUpper

theorem toUpper_toNat :
    c.toUpper.toNat = if 97 ≤ c.toNat ∧ c.toNat ≤ 122 then c.toNat - 32 else c.toNat := by
  unfold Char.toUpper
  split
  next lower =>
    have low : 97 ≤ c.val.toNat := lower.1
    have high : c.val.toNat ≤ 122 := lower.2
    rw [if_pos ⟨low, high⟩]
    have shifted : (c.val + ('A'.val - 'a'.val)).toNat = c.val.toNat - 32 := by
      rw [UInt32.toNat_add, show ('A'.val - 'a'.val).toNat = 4294967264 from rfl]
      omega
    exact shifted
  next notLower =>
    rw [if_neg]
    exact notLower

theorem isAlpha_iff :
    c.isAlpha = true ↔ 65 ≤ c.toNat ∧ c.toNat ≤ 90 ∨ 97 ≤ c.toNat ∧ c.toNat ≤ 122 := by
  delta Char.isAlpha Char.isUpper Char.isLower
  simp only [or_eq_true, and_eq_true, decide_eq_true_eq]
  rfl

theorem isAlpha_toUpper (letter : c.isAlpha = true) : c.toUpper.isAlpha = true := by
  rw [isAlpha_iff] at letter ⊢
  rw [toUpper_toNat]
  split <;> omega

theorem toLower_toLower : c.toLower.toLower = c.toLower := by
  rw [← Char.toNat_inj, toLower_toNat c.toLower, toLower_toNat]
  grind

theorem isDigit_iff : c.isDigit = true ↔ 48 ≤ c.toNat ∧ c.toNat ≤ 57 := by
  simp only [Char.isDigit, and_eq_true, decide_eq_true_eq]
  rfl

theorem isDigit_toLower : c.toLower.isDigit = c.isDigit := by
  rw [Bool.eq_iff_iff, isDigit_iff, isDigit_iff, toLower_toNat]
  split <;> omega

theorem toLower_eq_iff (c target : Char) (notLetter : target.isAlpha = false) :
    c.toLower = target ↔ c = target := by
  have bounds := mt (isAlpha_iff target).mpr (by rw [notLetter]; exact false_ne_true)
  rw [← Char.toNat_inj, ← Char.toNat_inj, toLower_toNat]
  split <;> omega

end CodexFormal.Foundation.AsciiCase
