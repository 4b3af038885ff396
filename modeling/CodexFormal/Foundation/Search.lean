import Mathlib.Data.List.Basic

/-!
# Searching a text that arrives in pieces

A position of the text is settled once the needle can no longer start there,
whatever follows.  The first position that is not settled is the first
occurrence, if there is one, and otherwise the start of the longest end of the
text that the needle could still continue.
-/

set_option autoImplicit false

namespace CodexFormal.Foundation.Search

open List

universe u

variable {Symbol : Type u} [DecidableEq Symbol]

/-- The position of the first occurrence. -/
def find? (needle : List Symbol) : List Symbol → Option Nat
  | [] => if needle = [] then some 0 else none
  | symbol :: rest =>
    if needle <+: symbol :: rest then some 0 else (find? needle rest).map (· + 1)

/-- The needle starts here, or could still start here if the text goes on. -/
def Overlaps (needle text : List Symbol) : Prop := needle <+: text ∨ text <+: needle

instance (needle text : List Symbol) : Decidable (Overlaps needle text) :=
  inferInstanceAs (Decidable (needle <+: text ∨ text <+: needle))

def firstOverlap (needle : List Symbol) : List Symbol → Nat
  | [] => 0
  | symbol :: rest =>
    if Overlaps needle (symbol :: rest) then 0 else firstOverlap needle rest + 1

variable (needle text : List Symbol)

theorem firstOverlap_le : firstOverlap needle text ≤ text.length := by
  induction text with
  | nil => exact Nat.le_refl 0
  | cons sym rest ih =>
    rw [firstOverlap, length_cons]
    split <;> omega

theorem firstOverlap_eq_zero (overlaps : Overlaps needle text) : firstOverlap needle text = 0 := by
  cases text with
  | nil => rfl
  | cons sym rest => rw [firstOverlap, if_pos overlaps]

theorem overlaps_firstOverlap : Overlaps needle (text.drop (firstOverlap needle text)) := by
  induction text with
  | nil => exact .inr nil_prefix
  | cons sym rest ih =>
    rw [firstOverlap]
    split
    · assumption
    · exact ih

omit [DecidableEq Symbol] in
theorem Overlaps.of_append {needle text more : List Symbol}
    (overlaps : Overlaps needle (text ++ more)) : Overlaps needle text := by
  rcases overlaps with isAt | continues
  · exact prefix_or_prefix_of_prefix isAt (prefix_append text more)
  · exact .inr ((prefix_append text more).trans continues)

variable (position : Nat)

theorem not_overlaps_of_lt
    (earlier : position < firstOverlap needle text) : ¬ Overlaps needle (text.drop position) := by
  induction text generalizing position with
  | nil => exact absurd earlier (Nat.not_lt_zero position)
  | cons sym rest ih =>
    rw [firstOverlap] at earlier
    split at earlier
    · exact absurd earlier (Nat.not_lt_zero position)
    next settled =>
      cases position with
      | zero => exact settled
      | succ position => exact ih position (by omega)

theorem find?_eq_none_of_length_lt
    (short : text.length < needle.length) : find? needle text = none := by
  induction text with
  | nil => rw [find?, if_neg (ne_nil_of_length_pos short)]
  | cons sym rest ih =>
    have gone : ¬ needle <+: sym :: rest := fun isAt =>
      absurd isAt.length_le (by omega)
    rw [find?, if_neg gone, ih (by rw [length_cons] at short; omega), Option.map_none]

theorem find?_eq : find? needle text =
      if needle <+: text.drop (firstOverlap needle text) then some (firstOverlap needle text)
      else none := by
  induction text with
  | nil => simp [find?, firstOverlap]
  | cons sym rest ih =>
    by_cases overlaps : Overlaps needle (sym :: rest)
    · rw [firstOverlap_eq_zero needle _ overlaps, drop_zero, find?]
      split
      · rfl
      next gone =>
        -- the text is a proper beginning of the needle, so nothing fits behind it either
        have front : sym :: rest <+: needle := overlaps.resolve_left gone
        have short : (sym :: rest).length < needle.length := by
          refine Nat.lt_of_le_of_ne front.length_le fun sameLength => gone ?_
          exact (front.eq_of_length sameLength).symm ▸ prefix_rfl
        rw [length_cons] at short
        rw [find?_eq_none_of_length_lt needle rest (by omega), Option.map_none]
    · have gone : ¬ needle <+: sym :: rest := fun isAt => overlaps (.inl isAt)
      rw [firstOverlap, if_neg overlaps, drop_succ_cons, find?, if_neg gone, ih]
      split <;> rfl

theorem find?_eq_some (found : find? needle text = some position) :
    position = firstOverlap needle text ∧ needle <+: text.drop position := by
  rw [find?_eq] at found
  split at found
  next isAt =>
    cases found
    exact ⟨rfl, isAt⟩
  · cases found

theorem add_length_le_of_find?_eq_some
    (found : find? needle text = some position) : position + needle.length ≤ text.length := by
  obtain ⟨first, isAt⟩ := find?_eq_some needle text position found
  have fits := isAt.length_le
  have isIn := firstOverlap_le needle text
  rw [length_drop] at fits
  omega

end CodexFormal.Foundation.Search
