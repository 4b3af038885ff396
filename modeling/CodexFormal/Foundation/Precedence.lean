import Mathlib.Order.Lattice

/-!
# The most specific rule

Rules for places of a forest: the deepest rule at or above a place governs it,
and of the deepest ones the one with the greatest access.
-/

set_option autoImplicit false

namespace CodexFormal.Foundation

/-- A forest of places: the places above a place form a chain that is ordered by depth. -/
class Hierarchy (Place : Type) where
  Within : Place → Place → Prop
  depth : Place → Nat
  within_refl : ∀ place, Within place place
  within_trans : ∀ {place middle base}, Within place middle → Within middle base →
    Within place base
  within_of_depth_le : ∀ {place first second}, Within place first → Within place second →
    depth first ≤ depth second → Within second first
  eq_of_depth_le : ∀ {place base}, Within place base → depth place ≤ depth base → place = base

namespace Hierarchy

variable {Place : Type} [Hierarchy Place]

theorem eq_of_depth_eq {place first second : Place} (belowFirst : Within place first)
    (belowSecond : Within place second) (same : depth first = depth second) : first = second :=
  (eq_of_depth_le (within_of_depth_le belowFirst belowSecond (Nat.le_of_eq same))
    (Nat.le_of_eq same.symm)).symm

end Hierarchy

/-- The order of pairs of a depth and an access, first by depth. -/
def RankLe {Access : Type} [LinearOrder Access] (first second : Nat × Access) : Prop :=
  first.1 < second.1 ∨ first.1 = second.1 ∧ first.2 ≤ second.2

section Ranks

variable {Access : Type} [LinearOrder Access]

instance : DecidableRel (RankLe : Nat × Access → Nat × Access → Prop) :=
  fun _ _ => inferInstanceAs (Decidable (_ ∨ _ ∧ _))

theorem RankLe.total (first second : Nat × Access) : RankLe first second ∨ RankLe second first := by
  unfold RankLe
  rcases Nat.lt_trichotomy first.1 second.1 with lower | same | higher
  · exact .inl (.inl lower)
  · rcases le_total first.2 second.2 with atMost | atLeast
    · exact .inl (.inr ⟨same, atMost⟩)
    · exact .inr (.inr ⟨same.symm, atLeast⟩)
  · exact .inr (.inl higher)

theorem RankLe.trans {first second third : Nat × Access} (lower : RankLe first second)
    (upper : RankLe second third) : RankLe first third := by
  unfold RankLe at *
  rcases lower with lower | ⟨lowerDepth, lowerAccess⟩
  · rcases upper with upper | ⟨upperDepth, _⟩
    · exact .inl (Nat.lt_trans lower upper)
    · exact .inl (upperDepth ▸ lower)
  · rcases upper with upper | ⟨upperDepth, upperAccess⟩
    · exact .inl (lowerDepth ▸ upper)
    · exact .inr ⟨lowerDepth.trans upperDepth, le_trans lowerAccess upperAccess⟩

theorem RankLe.depth_le {first second : Nat × Access} (below : RankLe first second) :
    first.1 ≤ second.1 := by
  rcases below with lower | ⟨same, _⟩
  · exact Nat.le_of_lt lower
  · exact Nat.le_of_eq same

theorem RankLe.antisymm {first second : Nat × Access} (below : RankLe first second)
    (above : RankLe second first) : first = second := by
  have same : first.1 = second.1 := Nat.le_antisymm below.depth_le above.depth_le
  refine Prod.ext same ?_
  rcases below with below | ⟨_, atMost⟩
  · omega
  · rcases above with above | ⟨_, atLeast⟩
    · omega
    · exact le_antisymm atMost atLeast

end Ranks

def lastMaximum {α Access : Type} [LinearOrder Access] (rank : α → Nat × Access)
    (elements : List α) : Option α :=
  elements.foldl (fun best element =>
    match best with
    | none => some element
    | some greatest =>
      if RankLe (rank greatest) (rank element) then some element else some greatest) none

section Maxima

variable {α Access : Type} [LinearOrder Access] (rank : α → Nat × Access) (elems : List α)

theorem foldl_lastMaximum (start : α) : ∃ most, elems.foldl (fun best elem => match best with
        | none => some elem
        | some most => if RankLe (rank most) (rank elem) then some elem else some most)
        (some start) = some most ∧ most ∈ start :: elems ∧
      ∀ elem ∈ start :: elems, RankLe (rank elem) (rank most) := by
  induction elems generalizing start with
  | nil =>
    refine ⟨start, rfl, List.mem_cons_self .., fun elem mem => ?_⟩
    rw [List.mem_singleton.mp mem]
    exact (RankLe.total (rank start) (rank start)).elim id id
  | cons elem rest ih =>
    rw [List.foldl_cons]
    dsimp only
    by_cases below : RankLe (rank start) (rank elem)
    · rw [if_pos below]
      obtain ⟨most, res, mem, bound⟩ := ih elem
      refine ⟨most, res, List.mem_cons_of_mem start mem, fun other otherMem => ?_⟩
      rcases List.mem_cons.mp otherMem with rfl | otherMem
      · exact below.trans (bound elem (List.mem_cons_self ..))
      · exact bound other otherMem
    · rw [if_neg below]
      obtain ⟨most, res, mem, bound⟩ := ih start
      have above := bound start (List.mem_cons_self ..)
      refine ⟨most, res, ?_, fun other otherMem => ?_⟩
      · rcases List.mem_cons.mp mem with rfl | mem
        · exact List.mem_cons_self ..
        · exact List.mem_cons_of_mem _ (List.mem_cons_of_mem _ mem)
      · rcases List.mem_cons.mp otherMem with rfl | otherMem
        · exact above
        · rcases List.mem_cons.mp otherMem with rfl | otherMem
          · exact ((RankLe.total (rank start) (rank other)).resolve_left below).trans above
          · exact bound other (List.mem_cons_of_mem _ otherMem)

theorem lastMaximum_eq_none : lastMaximum rank elems = none ↔ elems = [] := by
  cases elems with
  | nil => simp [lastMaximum]
  | cons elem rest =>
    obtain ⟨most, res, _⟩ := foldl_lastMaximum rank rest elem
    simp [lastMaximum, res]

theorem lastMaximum_eq_some (greatest : α) (found : lastMaximum rank elems = some greatest) :
    greatest ∈ elems ∧ ∀ elem ∈ elems, RankLe (rank elem) (rank greatest) := by
  cases elems with
  | nil => cases found
  | cons elem rest =>
    obtain ⟨other, res, mem, bound⟩ := foldl_lastMaximum rank rest elem
    have same : some other = some greatest := res.symm.trans found
    cases same
    exact ⟨mem, bound⟩

end Maxima

section Rules

open Hierarchy

variable {Place Access : Type} [Hierarchy Place] [LinearOrder Access]

def rank (rule : Place × Access) : Nat × Access := (depth rule.1, rule.2)

/-- The rule that decides about a place: of those that cover it, the one of greatest rank. -/
structure Governs (rules : List (Place × Access)) (place : Place) (rule : Place × Access) :
    Prop where
  mem : rule ∈ rules
  covers : Within place rule.1
  greatest : ∀ other ∈ rules, Within place other.1 → RankLe (rank other) (rank rule)

variable {rules : List (Place × Access)} {place : Place}

theorem Governs.unique {rule other : Place × Access}
    (first : Governs rules place rule) (second : Governs rules place other) : rule = other := by
  have same : rank rule = rank other :=
    (second.greatest rule first.mem first.covers).antisymm
      (first.greatest other second.mem second.covers)
  exact Prod.ext (eq_of_depth_eq first.covers second.covers (congrArg Prod.fst same))
    (congrArg (fun pair : Nat × Access => pair.2) same)

theorem Governs.of_subset {rules fewer : List (Place × Access)} {place : Place}
    {rule : Place × Access} (gov : Governs rules place rule) (kept : rule ∈ fewer)
    (subset : ∀ other ∈ fewer, other ∈ rules) : Governs fewer place rule :=
  ⟨kept, gov.covers, fun other mem => gov.greatest other (subset other mem)⟩

theorem Governs.congr {rules more : List (Place × Access)} {place : Place}
    {rule : Place × Access} (gov : Governs rules place rule)
    (same : ∀ other, other ∈ rules ↔ other ∈ more) : Governs more place rule :=
  gov.of_subset ((same rule).mp gov.mem) fun other mem => (same other).mpr mem

theorem Governs.governs_own {rule : Place × Access}
    (gov : Governs rules place rule) : Governs rules rule.1 rule :=
  ⟨gov.mem, within_refl rule.1, fun other mem covers =>
    gov.greatest other mem (within_trans gov.covers covers)⟩

/-- Below a place, a governing rule that is no deeper than the place governs the place as well. -/
theorem Governs.eq_of_depth_le {place below : Place}
    {rule lower : Place × Access} (gov : Governs rules place rule)
    (governsBelow : Governs rules below lower) (within : Within below place)
    (shallow : depth lower.1 ≤ depth place) : lower = rule := by
  have covers : Within place lower.1 := within_of_depth_le governsBelow.covers within shallow
  have greatest : Governs rules place lower :=
    ⟨governsBelow.mem, covers, fun other mem otherCovers =>
      governsBelow.greatest other mem (within_trans within otherCovers)⟩
  exact greatest.unique gov

theorem exists_governs {rules : List (Place × Access)} {place : Place}
    (covered : ∃ rule ∈ rules, Within place rule.1) : ∃ rule, Governs rules place rule := by
  classical
  cases found : lastMaximum rank (rules.filter fun rule => Within place rule.1) with
  | none =>
    obtain ⟨rule, mem, covers⟩ := covered
    have isIn : rule ∈ rules.filter fun rule => Within place rule.1 := by
      simp [mem, covers]
    rw [(lastMaximum_eq_none rank _).mp found] at isIn
    cases isIn
  | some rule =>
    obtain ⟨mem, most⟩ := lastMaximum_eq_some rank _ rule found
    have isIn : rule ∈ rules ∧ Within place rule.1 := by simpa using mem
    exact ⟨rule, isIn.1, isIn.2, fun other otherMem covers =>
      most other (by simp [otherMem, covers])⟩

end Rules

end CodexFormal.Foundation
