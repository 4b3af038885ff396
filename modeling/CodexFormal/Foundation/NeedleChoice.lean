import CodexFormal.Foundation.Search

/-!
# Searching for several needles at once

At a position the longest needle is chosen, the first one among equals.  A choice that was
made in a text stands when the text goes on, if no needle is hidden in a proper beginning of
another one; what is settled is settled in any case.
-/

set_option autoImplicit false

namespace CodexFormal.Foundation.Search

open List Option

universe u v

variable {Symbol : Type u} [DecidableEq Symbol] {Item : Type v} (needleOf : Item → List Symbol)

def longestAt : List Item → List Symbol → Option Item
  | [], _ => none
  | item :: others, text =>
    match longestAt others text with
    | none => if needleOf item <+: text then some item else none
    | some best =>
      if needleOf item <+: text ∧ (needleOf best).length ≤ (needleOf item).length then
        some item
      else some best

/-- The first position of a needle, and the longest needle there. -/
def findLongest (items : List Item) : List Symbol → Option (Nat × Item)
  | [] => none
  | symbol :: rest =>
    match longestAt needleOf items (symbol :: rest) with
    | some item => some (0, item)
    | none => (findLongest items rest).map fun found => (found.1 + 1, found.2)

/-- No needle is contained in a proper beginning of another one. -/
def Unhidden (items : List Item) : Prop :=
  ∀ inner ∈ items, ∀ outer ∈ items, ¬ needleOf inner <:+: (needleOf outer).dropLast

/-- The first position where a needle starts or could still start. -/
def firstUnsettled (items : List Item) : List Symbol → Nat
  | [] => 0
  | symbol :: rest =>
    if ∃ item ∈ items, Overlaps (needleOf item) (symbol :: rest) then 0
    else firstUnsettled items rest + 1

/-- The earlier of two finds, at one position the longer needle, then the first one. -/
def earlier (item : Item) (first : Option Nat) (second : Option (Nat × Item)) :
    Option (Nat × Item) :=
  match first, second with
  | none, second => second
  | some position, none => some (position, item)
  | some position, some (other, best) =>
    if other < position ∨ other = position ∧ (needleOf item).length < (needleOf best).length then
      some (other, best)
    else some (position, item)

variable {needleOf} (items : List Item) (text : List Symbol)

theorem longestAt_eq_none_iff :
    longestAt needleOf items text = none ↔ ∀ item ∈ items, ¬ needleOf item <+: text := by
  induction items with
  | nil => simp [longestAt]
  | cons item more ih =>
    rw [longestAt, forall_mem_cons, ← ih]
    cases longestAt needleOf more text with
    | none =>
      simp only [and_true]
      split
      next isAt =>
        exact iff_of_false (by simp) fun gone => gone isAt
      next gone =>
        exact iff_of_true rfl gone
    | some best =>
      simp only [reduceCtorEq, and_false, iff_false]
      split <;> simp

variable (item : Item)

theorem longestAt_eq_some (chosen : longestAt needleOf items text = some item) :
    item ∈ items ∧ needleOf item <+: text := by
  induction items with
  | nil => cases chosen
  | cons first more ih =>
    rw [longestAt] at chosen
    cases rest : longestAt needleOf more text with
    | none =>
      simp only [rest] at chosen
      split at chosen
      next isAt =>
        cases chosen
        exact ⟨mem_cons_self, isAt⟩
      · cases chosen
    | some best =>
      simp only [rest] at chosen
      split at chosen
      next preferred =>
        cases chosen
        exact ⟨mem_cons_self, preferred.1⟩
      · cases chosen
        obtain ⟨mem, isAt⟩ := ih rest
        exact ⟨mem_cons_of_mem _ mem, isAt⟩

theorem length_le_of_longestAt (item other : Item)
    (chosen : longestAt needleOf items text = some item) (mem : other ∈ items)
    (isAt : needleOf other <+: text) : (needleOf other).length ≤ (needleOf item).length := by
  induction items generalizing item with
  | nil => cases chosen
  | cons first more ih =>
    rw [longestAt] at chosen
    cases rest : longestAt needleOf more text with
    | none =>
      have gone := (longestAt_eq_none_iff more text).mp rest
      simp only [rest] at chosen
      split at chosen
      · cases chosen
        rcases mem_cons.mp mem with rfl | later
        · exact Nat.le_refl _
        · exact absurd isAt (gone other later)
      · cases chosen
    | some best =>
      simp only [rest] at chosen
      split at chosen
      next preferred =>
        cases chosen
        rcases mem_cons.mp mem with rfl | later
        · exact Nat.le_refl _
        · exact Nat.le_trans (ih best rest later) preferred.2
      next refused =>
        cases chosen
        rcases mem_cons.mp mem with rfl | later
        · by_contra longer
          exact refused ⟨isAt, by omega⟩
        · exact ih item rest later

theorem longestAt_congr (text other : List Symbol)
    (same : ∀ item ∈ items, needleOf item <+: text ↔ needleOf item <+: other) :
    longestAt needleOf items text = longestAt needleOf items other := by
  induction items with
  | nil => rfl
  | cons item more ih =>
    obtain ⟨here, later⟩ := forall_mem_cons.mp same
    rw [longestAt, longestAt, ih later]
    simp [here]

theorem findLongest_eq_some (pos : Nat)
    (item : Item) (found : findLongest needleOf items text = some (pos, item)) :
    item ∈ items ∧ needleOf item <+: text.drop pos ∧ pos < text.length := by
  induction text generalizing pos with
  | nil => cases found
  | cons sym rest ih =>
    rw [findLongest] at found
    cases here : longestAt needleOf items (sym :: rest) with
    | some chosen =>
      simp only [here] at found
      cases found
      obtain ⟨mem, isAt⟩ := longestAt_eq_some items _ item here
      exact ⟨mem, isAt, Nat.succ_pos _⟩
    | none =>
      simp only [here] at found
      obtain ⟨⟨pre, other⟩, later, isFound⟩ := map_eq_some_iff.mp found
      cases isFound
      obtain ⟨mem, isAt, isIn⟩ := ih pre later
      exact ⟨mem, isAt, Nat.succ_lt_succ isIn⟩

theorem not_infix_of_findLongest_eq_none
    (gone : findLongest needleOf items text = none) (item : Item) (mem : item ∈ items)
    (ne : needleOf item ≠ []) : ¬ needleOf item <:+: text := by
  induction text with
  | nil => exact fun holds => ne (infix_nil.mp holds)
  | cons sym rest ih =>
    rw [findLongest] at gone
    cases here : longestAt needleOf items (sym :: rest) with
    | some chosen =>
      simp only [here] at gone
      cases gone
    | none =>
      simp only [here, map_eq_none_iff] at gone
      rw [infix_cons_iff, not_or]
      exact ⟨(longestAt_eq_none_iff items _).mp here item mem, ih gone⟩

omit [DecidableEq Symbol] in
/-- A needle behind the end of a text that it begins with, and that holds another needle. -/
theorem Unhidden.not_continued {items : List Item} (unhidden : Unhidden needleOf items)
    (inner outer : Item) (isInner : inner ∈ items) (isOuter : outer ∈ items)
    (text more : List Symbol) (holds : needleOf inner <:+: text)
    (continued : needleOf outer <+: text ++ more) : needleOf outer <+: text := by
  rcases prefix_or_prefix_of_prefix continued (prefix_append text more) with
    inside | front
  · exact inside
  · by_cases whole : (needleOf outer).length ≤ text.length
    · exact (front.eq_of_length (Nat.le_antisymm front.length_le whole)).symm ▸ prefix_rfl
    · refine absurd (holds.trans ?_) (unhidden inner isInner outer isOuter)
      rw [dropLast_eq_take]
      exact (prefix_take_iff.mpr ⟨front, by omega⟩).isInfix

theorem findLongest_append {items : List Item} (unhidden : Unhidden needleOf items)
    (text more : List Symbol) (pos : Nat) (item : Item)
    (found : findLongest needleOf items text = some (pos, item)) :
    findLongest needleOf items (text ++ more) = some (pos, item) := by
  induction text generalizing pos with
  | nil => cases found
  | cons sym rest ih =>
    obtain ⟨mem, isAt, _⟩ := findLongest_eq_some items _ pos item found
    have holds : needleOf item <:+: sym :: rest :=
      isAt.isInfix.trans (drop_suffix _ _).isInfix
    have sameHere : longestAt needleOf items (sym :: rest ++ more) =
        longestAt needleOf items (sym :: rest) := by
      refine longestAt_congr items _ _ fun other isOther => ⟨fun continued => ?_, fun isIn => ?_⟩
      · exact unhidden.not_continued item other mem isOther _ more holds continued
      · exact isIn.trans (prefix_append _ _)
    rw [findLongest] at found
    rw [cons_append, findLongest, ← cons_append, sameHere]
    cases here : longestAt needleOf items (sym :: rest) with
    | some chosen =>
      simp only [here] at found
      exact found
    | none =>
      simp only [here] at found
      obtain ⟨⟨pre, other⟩, later, isFound⟩ := map_eq_some_iff.mp found
      cases isFound
      simp [ih pre later]

theorem firstUnsettled_le : firstUnsettled needleOf items text ≤ text.length := by
  induction text with
  | nil => exact Nat.le_refl 0
  | cons sym rest ih =>
    rw [firstUnsettled, length_cons]
    split <;> omega

theorem firstUnsettled_append (text more : List Symbol) :
    firstUnsettled needleOf items (text ++ more) =
    firstUnsettled needleOf items text + firstUnsettled needleOf items
    (text.drop (firstUnsettled needleOf items text) ++ more) := by
  induction text with
  | nil => simp [firstUnsettled]
  | cons sym rest ih =>
    by_cases overlaps : ∃ item ∈ items, Overlaps (needleOf item) (sym :: rest)
    · have here : firstUnsettled needleOf items (sym :: rest) = 0 := by
        rw [firstUnsettled, if_pos overlaps]
      rw [here, drop_zero, Nat.zero_add]
    · have later : firstUnsettled needleOf items (sym :: rest) =
          firstUnsettled needleOf items rest + 1 := by
        rw [firstUnsettled, if_neg overlaps]
      have extended : ¬ ∃ item ∈ items, Overlaps (needleOf item) (sym :: (rest ++ more)) := by
        rintro ⟨item, mem, still⟩
        exact overlaps ⟨item, mem, Overlaps.of_append still⟩
      rw [later, cons_append, firstUnsettled, if_neg extended, ih, drop_succ_cons]
      omega

theorem findLongest_settled (text more : List Symbol) : findLongest needleOf items (text ++ more) =
    (findLongest needleOf items (text.drop (firstUnsettled needleOf items text) ++ more)).map
    fun found => (firstUnsettled needleOf items text + found.1, found.2) := by
  induction text with
  | nil => simp [firstUnsettled]
  | cons sym rest ih =>
    by_cases overlaps : ∃ item ∈ items, Overlaps (needleOf item) (sym :: rest)
    · have here : firstUnsettled needleOf items (sym :: rest) = 0 := by
        rw [firstUnsettled, if_pos overlaps]
      simp [here]
    · have later : firstUnsettled needleOf items (sym :: rest) =
          firstUnsettled needleOf items rest + 1 := by
        rw [firstUnsettled, if_neg overlaps]
      have gone : longestAt needleOf items (sym :: (rest ++ more)) = none := by
        refine (longestAt_eq_none_iff items _).mpr fun item mem isAt => overlaps ?_
        exact ⟨item, mem, Overlaps.of_append (.inl isAt)⟩
      rw [later, cons_append, findLongest, gone, ih, drop_succ_cons]
      simp only [Option.map_map]
      congr 1
      funext found
      simp only [Function.comp_apply, Prod.mk.injEq, and_true]
      omega

theorem firstUnsettled_cons (more : List Item) (text : List Symbol) :
    firstUnsettled needleOf (item :: more) text =
    min (firstOverlap (needleOf item) text) (firstUnsettled needleOf more text) := by
  induction text with
  | nil => rfl
  | cons sym rest ih =>
    rw [firstUnsettled, firstOverlap, firstUnsettled]
    by_cases here : Overlaps (needleOf item) (sym :: rest)
    · simp [here]
    · by_cases other : ∃ item ∈ more, Overlaps (needleOf item) (sym :: rest)
      · simp [other]
      · have none : ¬ ∃ listed ∈ item :: more, Overlaps (needleOf listed) (sym :: rest) := by
          simpa [here] using other
        rw [if_neg none, if_neg here, if_neg other, ih]
        omega

theorem findLongest_cons (more : List Item) (ne : needleOf item ≠ []) (text : List Symbol) :
    findLongest needleOf (item :: more) text = earlier needleOf item (find? (needleOf item) text)
    (findLongest needleOf more text) := by
  induction text with
  | nil => simp [findLongest, find?, ne, earlier]
  | cons sym rest ih =>
    rw [findLongest, findLongest, find?, longestAt, ih]
    cases longestAt needleOf more (sym :: rest) with
    | none =>
      by_cases here : needleOf item <+: sym :: rest
      · simp only [here, if_true]
        cases findLongest needleOf more rest with
        | none => rfl
        | some found => simp [earlier]
      · simp only [here, if_false]
        cases find? (needleOf item) rest with
        | none => rfl
        | some pos =>
          cases findLongest needleOf more rest with
          | none => rfl
          | some found =>
            simp only [earlier, map_some, Nat.add_lt_add_iff_right, Nat.add_right_cancel_iff]
            split <;> rfl
    | some best =>
      by_cases here : needleOf item <+: sym :: rest
      · simp only [here, true_and, if_true, earlier, Nat.lt_irrefl, false_or]
        by_cases longer : (needleOf best).length ≤ (needleOf item).length
        · rw [if_pos longer, if_neg (Nat.not_lt.mpr longer)]
        · rw [if_neg longer, if_pos (Nat.lt_of_not_le longer)]
      · simp only [here, false_and, if_false]
        cases find? (needleOf item) rest with
        | none => rfl
        | some pos => simp [earlier]

theorem findLongest_nil : findLongest needleOf [] text = none := by
  induction text with
  | nil => rfl
  | cons sym rest ih =>
    rw [findLongest, ih]
    rfl

theorem findLongest_singleton (ne : needleOf item ≠ []) (text : List Symbol) :
    findLongest needleOf [item] text = (find? (needleOf item) text).map (·, item) := by
  rw [findLongest_cons item [] ne, findLongest_nil]
  cases find? (needleOf item) text <;> rfl

theorem firstUnsettled_nil : firstUnsettled needleOf [] text = text.length := by
  induction text with
  | nil => rfl
  | cons sym rest ih => simp [firstUnsettled, ih]

theorem firstUnsettled_singleton (text : List Symbol) :
    firstUnsettled needleOf [item] text = firstOverlap (needleOf item) text := by
  rw [firstUnsettled_cons, firstUnsettled_nil, Nat.min_eq_left (firstOverlap_le _ text)]

theorem findLongest_map {Source : Type v} (toItem : Source → Item) (sources : List Source)
    (text : List Symbol) : findLongest needleOf (sources.map toItem) text =
    (findLongest (fun source => needleOf (toItem source)) sources text).map
    fun found => (found.1, toItem found.2) := by
  have sameLongest : ∀ text, longestAt needleOf (sources.map toItem) text =
      (longestAt (fun source => needleOf (toItem source)) sources text).map toItem := by
    intro text
    induction sources with
    | nil => rfl
    | cons source more ih =>
      rw [map_cons, longestAt, longestAt, ih]
      cases longestAt (fun source => needleOf (toItem source)) more text with
      | none =>
        simp only [Option.map_none]
        split <;> rfl
      | some best =>
        simp only [map_some]
        split <;> rfl
  induction text with
  | nil => rfl
  | cons sym rest ih =>
    rw [findLongest, findLongest, sameLongest, ih]
    cases longestAt (fun source => needleOf (toItem source)) sources (sym :: rest) with
    | none =>
      simp only [Option.map_none, Option.map_map]
      rfl
    | some item => rfl

theorem firstUnsettled_map {Source : Type v} (toItem : Source → Item) (sources : List Source)
    (text : List Symbol) : firstUnsettled needleOf (sources.map toItem) text =
    firstUnsettled (fun source => needleOf (toItem source)) sources text := by
  induction text with
  | nil => rfl
  | cons sym rest ih => simp [firstUnsettled, ih]

end CodexFormal.Foundation.Search
