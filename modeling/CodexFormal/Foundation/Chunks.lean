import Mathlib.Data.List.Basic
import Mathlib.Data.List.Flatten

/-!
# Cutting a list into chunks

`chunks size` is the usual cut into pieces of `size` elements with a shorter
last piece.  `IsCut` says of any list of pieces that it is a cut of a list into
non-empty pieces of bounded length.
-/

set_option autoImplicit false

namespace CodexFormal.Foundation

open List

universe u
variable {α : Type u}

/-- The first argument bounds the number of pieces. -/
def chunksUpTo (size : Nat) : Nat → List α → List (List α)
  | 0, _ => []
  | _ + 1, [] => []
  | rounds + 1, head :: tail =>
    (head :: tail).take size :: chunksUpTo size rounds ((head :: tail).drop size)

def chunks (size : Nat) (list : List α) : List (List α) :=
  chunksUpTo size list.length list

structure IsCut (bound : Nat) (pieces : List (List α)) (list : List α) : Prop where
  joined : pieces.flatten = list
  nonempty : ∀ piece ∈ pieces, piece ≠ []
  bounded : ∀ piece ∈ pieces, piece.length ≤ bound

theorem chunksUpTo_isCut (size : Nat) (pos : 0 < size) :
    ∀ (rounds : Nat) (list : List α), list.length ≤ rounds →
    IsCut size (chunksUpTo size rounds list) list := by
  intro rounds
  induction rounds with
  | zero =>
    intro list enough
    have empty : list = [] := eq_nil_of_length_eq_zero (Nat.le_zero.mp enough)
    subst empty
    exact ⟨rfl, by simp [chunksUpTo], by simp [chunksUpTo]⟩
  | succ rounds ih =>
    intro list enough
    cases list with
    | nil => exact ⟨rfl, by simp [chunksUpTo], by simp [chunksUpTo]⟩
    | cons head tail =>
      have smaller : ((head :: tail).drop size).length ≤ rounds := by
        simp only [length_drop, length_cons] at enough ⊢
        omega
      obtain ⟨joined, ne, bounded⟩ := ih _ smaller
      refine ⟨?_, ?_, ?_⟩
      · rw [chunksUpTo, flatten_cons, joined, take_append_drop]
      · intro piece mem
        rcases mem_cons.mp mem with rfl | mem
        · rw [Ne, take_eq_nil_iff]
          simp only [reduceCtorEq, or_false]
          omega
        · exact ne piece mem
      · intro piece mem
        rcases mem_cons.mp mem with rfl | mem
        · exact length_take_le size _
        · exact bounded piece mem

theorem chunks_isCut {size : Nat} (pos : 0 < size) (list : List α) :
    IsCut size (chunks size list) list :=
  chunksUpTo_isCut size pos list.length list Nat.le.refl

end CodexFormal.Foundation
