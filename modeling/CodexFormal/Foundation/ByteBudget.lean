import CodexFormal.Foundation.JsonText

/-!
# Texts within a budget of bytes

The longest parts of a text at its two ends that consist of whole characters and
fit into a number of UTF-8 bytes, and the division of a text at a byte position.
-/

set_option autoImplicit false

namespace CodexFormal.Foundation

open Json List

variable {text part : List Char} {budget : Nat}

/-- No division exists inside a character or past the end. -/
def splitAtByte : Nat → List Char → Option (List Char × List Char)
  | 0, text => some ([], text)
  | _ + 1, [] => none
  | byte + 1, c :: rest =>
    if c.utf8Size ≤ byte + 1 then
      (splitAtByte (byte + 1 - c.utf8Size) rest).map fun parts => (c :: parts.1, parts.2)
    else none

theorem splitAtByte_append (pre after : List Char) :
    splitAtByte (utf8Length pre) (pre ++ after) = some (pre, after) := by
  induction pre with
  | nil =>
    rw [utf8Length_nil, nil_append]
    unfold splitAtByte
    cases after <;> rfl
  | cons c rest ih =>
    have pos := c.utf8Size_pos
    obtain ⟨byte, isByte⟩ : ∃ byte, utf8Length (c :: rest) = byte + 1 :=
      ⟨utf8Length (c :: rest) - 1, by rw [utf8Length_cons]; omega⟩
    rw [isByte, cons_append]
    rw [utf8Length_cons] at isByte
    have left : byte + 1 - c.utf8Size = utf8Length rest := by omega
    unfold splitAtByte
    rw [if_pos (by omega), left, ih]
    rfl

structure LongestPrefix (text : List Char) (budget : Nat) (part : List Char) : Prop where
  isPrefix : part <+: text
  within : utf8Length part ≤ budget
  longest : ∀ other, other <+: text → utf8Length other ≤ budget → other.length ≤ part.length

structure LongestSuffix (text : List Char) (budget : Nat) (part : List Char) : Prop where
  isSuffix : part <:+ text
  within : utf8Length part ≤ budget
  longest : ∀ other, other <:+ text → utf8Length other ≤ budget → other.length ≤ part.length

def takeWithin : Nat → List Char → List Char
  | _, [] => []
  | budget, c :: rest =>
    if c.utf8Size ≤ budget then c :: takeWithin (budget - c.utf8Size) rest else []

theorem longestPrefix_takeWithin (budget : Nat) (text : List Char) :
    LongestPrefix text budget (takeWithin budget text) := by
  induction text generalizing budget with
  | nil =>
    refine ⟨prefix_rfl, Nat.zero_le _, fun other isPrefix _ => ?_⟩
    rw [prefix_nil.mp isPrefix]
    exact Nat.le_refl _
  | cons c rest ih =>
    unfold takeWithin
    by_cases fits : c.utf8Size ≤ budget
    · rw [if_pos fits]
      have inner := ih (budget - c.utf8Size)
      refine ⟨cons_prefix_cons.mpr ⟨rfl, inner.isPrefix⟩, ?_, ?_⟩
      · have within := inner.within
        rw [utf8Length_cons]
        omega
      · intro other isPrefix within
        cases other with
        | nil => exact Nat.zero_le _
        | cons first more =>
          obtain ⟨rfl, restPrefix⟩ := cons_prefix_cons.mp isPrefix
          rw [utf8Length_cons] at within
          exact Nat.succ_le_succ (inner.longest more restPrefix (by omega))
    · rw [if_neg fits]
      refine ⟨⟨_, rfl⟩, Nat.zero_le _, fun other isPrefix within => ?_⟩
      cases other with
      | nil => exact Nat.le_refl _
      | cons first more =>
        obtain ⟨rfl, _⟩ := cons_prefix_cons.mp isPrefix
        rw [utf8Length_cons] at within
        omega

theorem utf8Length_reverse (text : List Char) : utf8Length text.reverse = utf8Length text := by
  simp [utf8Length]

theorem longestSuffix_takeWithin (budget : Nat) (text : List Char) :
    LongestSuffix text budget (takeWithin budget text.reverse).reverse := by
  have reversed := longestPrefix_takeWithin budget text.reverse
  refine ⟨?_, ?_, ?_⟩
  · rw [← reverse_prefix, reverse_reverse]
    exact reversed.isPrefix
  · rw [utf8Length_reverse]
    exact reversed.within
  · intro other isSuffix within
    have front := reverse_prefix.mpr isSuffix
    have longer := reversed.longest other.reverse front
      (by rw [utf8Length_reverse]; exact within)
    rw [length_reverse] at longer ⊢
    exact longer

theorem LongestPrefix.next_exceeds (longest : LongestPrefix text budget part) {c : Char}
    {rest : List Char} (split : text = part ++ c :: rest) :
    budget < utf8Length part + c.utf8Size := by
  by_contra fits
  have longer := longest.longest (part ++ [c]) ⟨rest, by rw [split, append_assoc]; rfl⟩
    (by rw [utf8Length_append, utf8Length_cons, utf8Length_nil]; omega)
  rw [length_append, length_singleton] at longer
  omega

theorem LongestSuffix.previous_exceeds (longest : LongestSuffix text budget part) {c : Char}
    {pre : List Char} (split : text = pre ++ c :: part) :
    budget < c.utf8Size + utf8Length part := by
  by_contra fits
  have longer := longest.longest (c :: part) ⟨pre, split.symm⟩ (by rw [utf8Length_cons]; omega)
  rw [length_cons] at longer
  omega

theorem utf8Length_le_of_sublist {smaller larger : List Char}
    (sublist : smaller.Sublist larger) : utf8Length smaller ≤ utf8Length larger :=
  (sublist.map _).sum_le_sum fun _ _ => Nat.zero_le _

theorem exists_middle {left right : Nat} {start finish : List Char}
    (short : left + right < utf8Length text) (longestStart : LongestPrefix text left start)
    (longest : LongestSuffix text right finish) : ∃ mid, text = start ++ mid ++ finish := by
  obtain ⟨rest, isRest⟩ := longestStart.isPrefix
  have startWithin := longestStart.within
  have finishWithin := longest.within
  have inRest : finish <:+ rest := by
    refine suffix_of_suffix_length_le longest.isSuffix ⟨start, isRest⟩ ?_
    by_contra longer
    have covers : rest <:+ finish :=
      suffix_of_suffix_length_le ⟨start, isRest⟩ longest.isSuffix (by omega)
    have smaller := utf8Length_le_of_sublist covers.sublist
    rw [← isRest, utf8Length_append] at short
    omega
  obtain ⟨mid, isMiddle⟩ := inRest
  exact ⟨mid, by rw [append_assoc, isMiddle, isRest]⟩

end CodexFormal.Foundation
