import Mathlib.Data.List.Sort

/-!
# Splicing edits into a list

An edit replaces a range of a list by new items.  Edits that are ordered and do
not overlap are spliced into the list: what no edit covers is kept, in order,
and the new items of an edit stand where its range was.
-/

set_option autoImplicit false

namespace CodexFormal.Foundation

open List

universe u v w

structure Edit (Item : Type u) where
  startIndex : Nat
  oldLen : Nat
  newItems : List Item
deriving DecidableEq, Repr

namespace Edit

variable {Item : Type u} (edit : Edit Item)

def stop : Nat := edit.startIndex + edit.oldLen

def Before (first second : Edit Item) : Prop := first.stop ≤ second.startIndex

def Covers (index : Nat) : Prop :=
  edit.startIndex ≤ index ∧ index < edit.stop

def StartsNoLater (first second : Edit Item) : Prop := first.startIndex ≤ second.startIndex

instance : DecidableRel (@StartsNoLater Item) :=
  fun first second => inferInstanceAs (Decidable (first.startIndex ≤ second.startIndex))

/-- The edits of a list of some size: ordered, apart from each other, in bounds. -/
structure Placed (edits : List (Edit Item)) (size : Nat) : Prop where
  ordered : edits.Pairwise Before
  within : ∀ edit ∈ edits, edit.stop ≤ size

theorem Placed.mono {edits : List (Edit Item)} {size larger : Nat} (placed : Placed edits size)
    (grows : size ≤ larger) : Placed edits larger :=
  ⟨placed.ordered, fun edit mem => (placed.within edit mem).trans grows⟩

theorem Placed.tail {edit : Edit Item} {edits : List (Edit Item)} {size : Nat}
    (placed : Placed (edit :: edits) size) : Placed edits size :=
  ⟨(pairwise_cons.mp placed.ordered).2,
    fun other mem => placed.within other (mem_cons_of_mem edit mem)⟩

theorem orderedInsert_append (early late : List (Edit Item))
    (after : ∀ other ∈ early, ¬ edit.StartsNoLater other)
    (notAfter : ∀ other ∈ late, edit.StartsNoLater other) :
    (early ++ late).orderedInsert StartsNoLater edit = early ++ edit :: late := by
  induction early with
  | nil =>
    cases late with
    | nil => rfl
    | cons other late => exact orderedInsert_cons_of_le _ _ (notAfter other (by simp))
  | cons other early ih =>
    rw [cons_append, orderedInsert_of_not_le _ _ (after other (by simp)),
      ih fun later mem => after later (mem_cons_of_mem other mem), cons_append]

/-- Where only edits with the latest possible start are out of order, the sort
moves these to the end and keeps the order otherwise. -/
theorem insertionSort_eq_partition (edits : List (Edit Item)) (bound : Nat)
    (within : ∀ edit ∈ edits, edit.startIndex ≤ bound) (ordered : edits.Pairwise fun first second =>
    first.startIndex < bound → second.startIndex < bound → first.StartsNoLater second) :
    edits.insertionSort StartsNoLater =
    edits.filter (·.startIndex < bound) ++ edits.filter (·.startIndex = bound) := by
  induction edits with
  | nil => rfl
  | cons edit rest ih =>
    obtain ⟨firstOrdered, restOrdered⟩ := pairwise_cons.mp ordered
    obtain ⟨editWithin, restWithin⟩ := forall_mem_cons.mp within
    have sorted := ih restWithin restOrdered
    rcases Nat.lt_or_eq_of_le editWithin with early | late
    · have least : ∀ other ∈ rest, edit.StartsNoLater other := by
        intro other mem
        rcases Nat.lt_or_eq_of_le (restWithin other mem) with isEarly | isLate
        · exact firstOrdered other mem early isEarly
        · exact early.le.trans isLate.ge
      rw [insertionSort_cons_of_forall_rel _ least, sorted]
      simp [early, early.ne]
    · rw [insertionSort_cons, sorted, orderedInsert_append edit]
      · simp [late]
      · intro other mem
        have starts := of_decide_eq_true (mem_filter.mp mem).2
        simp only [StartsNoLater]
        omega
      · intro other mem
        have starts := of_decide_eq_true (mem_filter.mp mem).2
        simp only [StartsNoLater]
        omega

theorem placed_insertionSort (edits : List (Edit Item)) (bound : Nat)
    (within : ∀ edit ∈ edits, edit.stop ≤ bound) (ordered : edits.Pairwise fun first second =>
    first.startIndex < bound → second.startIndex < bound → first.Before second) :
    Placed (edits.insertionSort StartsNoLater) bound := by
  have starts : ∀ edit ∈ edits, edit.startIndex ≤ bound := fun edit mem =>
    (Nat.le_add_right _ _).trans (within edit mem)
  refine ⟨?_, fun edit mem => within edit ((mem_insertionSort _).mp mem)⟩
  rw [insertionSort_eq_partition edits bound starts (ordered.imp fun pre early late =>
    (Nat.le_add_right _ _).trans (pre early late)), pairwise_append]
  refine ⟨?_, ?_, ?_⟩
  · refine (pairwise_filter.mpr (ordered.imp fun pre early late => ?_))
    exact pre (of_decide_eq_true early) (of_decide_eq_true late)
  · refine pairwise_of_forall_mem_list fun first isFirst second isSecond => ?_
    obtain ⟨isEdit, -⟩ := mem_filter.mp isFirst
    have last := of_decide_eq_true (mem_filter.mp isSecond).2
    exact (within first isEdit).trans last.ge
  · intro first isFirst second isSecond
    have last := of_decide_eq_true (mem_filter.mp isSecond).2
    exact (within first (mem_filter.mp isFirst).1).trans last.ge

end Edit

section Splices

variable {Old : Type u} {New : Type v} {Out : Type w}

/-- A list and what becomes of it from an offset on: up to the next edit its items
are kept, those of the edit are replaced, and so on to the end. -/
inductive Splices (keep : Old → Out) (put : New → Out) :
    Nat → List (Edit New) → List Old → List Out → Prop where
  | rest (offset : Nat) (items : List Old) : Splices keep put offset [] items (items.map keep)
  | edit (offset : Nat) (edit : Edit New) (edits : List (Edit New))
      (kept removed later : List Old) (out : List Out)
      (starts : offset + kept.length = edit.startIndex)
      (removes : removed.length = edit.oldLen)
      (others : Splices keep put edit.stop edits later out) :
      Splices keep put offset (edit :: edits) (kept ++ removed ++ later)
        (kept.map keep ++ edit.newItems.map put ++ out)

theorem Splices.take_drop {keep : Old → Out} {put : New → Out} {off : Nat}
    {edit : Edit New} {edits : List (Edit New)} {items : List Old} {out : List Out}
    (starts : off ≤ edit.startIndex) (fits : edit.stop ≤ off + items.length)
    (more : Splices keep put edit.stop edits (items.drop (edit.stop - off)) out) :
    Splices keep put off (edit :: edits) items
    ((items.take (edit.startIndex - off)).map keep ++ edit.newItems.map put ++ out) := by
  have stops : edit.stop = edit.startIndex + edit.oldLen := rfl
  have parts : items = items.take (edit.startIndex - off) ++
      (items.drop (edit.startIndex - off)).take edit.oldLen ++
      items.drop (edit.stop - off) := by
    have skipped : edit.stop - off = edit.startIndex - off + edit.oldLen := by omega
    rw [append_assoc, skipped, ← drop_drop, take_append_drop, take_append_drop]
  have rule := @Splices.edit Old New Out keep put off edit edits
    (items.take (edit.startIndex - off)) ((items.drop (edit.startIndex - off)).take edit.oldLen)
    (items.drop (edit.stop - off)) out (by rw [length_take]; omega)
    (by rw [length_take, length_drop]; omega) more
  rwa [← parts] at rule

theorem Splices.map {keep : Old → Out} {put : New → Out} {off : Nat}
    {edits : List (Edit New)} {items : List Old} {out : List Out}
    (splices : Splices keep put off edits items out) {Final : Type w} (change : Out → Final) :
    Splices (change ∘ keep) (change ∘ put) off edits items (out.map change) := by
  induction splices with
  | rest off items =>
    rw [map_map]
    exact .rest off items
  | edit off edit edits kept gone later out starts removes more ih =>
    rw [map_append, map_append, map_map, map_map]
    exact .edit off edit edits kept gone later _ starts removes ih

end Splices

end CodexFormal.Foundation
