import Mathlib.Algebra.Group.Nat.Defs
import Mathlib.Data.List.Basic

/-!
# Big-endian 32-bit words
-/

set_option autoImplicit false

namespace CodexFormal.Foundation

def toBeBytes (word : Nat) : List UInt8 :=
  [UInt8.ofNat (word / 2 ^ 24), UInt8.ofNat (word / 2 ^ 16), UInt8.ofNat (word / 2 ^ 8),
    UInt8.ofNat word]

def fromBeBytes (first second third fourth : UInt8) : Nat :=
  first.toNat * 2 ^ 24 + second.toNat * 2 ^ 16 + third.toNat * 2 ^ 8 + fourth.toNat

theorem fromBeBytes_toBeBytes {word : Nat} (small : word < 2 ^ 32) :
    fromBeBytes (UInt8.ofNat (word / 2 ^ 24)) (UInt8.ofNat (word / 2 ^ 16))
    (UInt8.ofNat (word / 2 ^ 8)) (UInt8.ofNat word) = word := by
  simp only [fromBeBytes, UInt8.toNat_ofNat']
  omega

end CodexFormal.Foundation
