import Mathlib.Data.List.Basic

/-!
# Overlays

Operations are applied in order, and the last one that covers a place governs
it.  The lemmas say which part of a list of operations the governing one is in.
-/

set_option autoImplicit false

namespace CodexFormal.Foundation

open List

section

variable {Operation : Type} (covers : Operation → Bool)

def governing (operations : List Operation) : Option Operation :=
  (operations.filter covers).getLast?

variable {covers}

theorem of_governing {ops : List Operation} {operation : Operation}
    (governs : governing covers ops = some operation) : operation ∈ ops ∧ covers operation = true :=
  mem_filter.mp (mem_of_getLast? governs)

theorem exists_governing {ops : List Operation} {operation : Operation}
    (mem : operation ∈ ops) (covered : covers operation = true) :
    ∃ last, governing covers ops = some last := by
  cases found : governing covers ops with
  | some last => exact ⟨last, rfl⟩
  | none =>
    rw [governing, getLast?_eq_none_iff, filter_eq_nil_iff] at found
    exact absurd covered (found operation mem)

theorem governing_append_of_not_covers (first second : List Operation)
    (bare : ∀ operation ∈ second, covers operation = false) :
    governing covers (first ++ second) = governing covers first := by
  have none : second.filter covers = [] := by
    rw [filter_eq_nil_iff]
    intro operation mem
    rw [bare operation mem]
    exact Bool.false_ne_true
  rw [governing, filter_append, none, append_nil, governing]

section

variable {first second : List Operation} {op : Operation}
  (gov : governing covers (first ++ second) = some op)

include gov

theorem governing_append_cases :
    governing covers second = some op ∨ governing covers first = some op ∧
    ∀ other ∈ second, covers other = false := by
  cases later : governing covers second with
  | some other =>
    left
    rw [governing, filter_append, getLast?_append] at gov
    rw [governing] at later
    rwa [later, Option.some_or] at gov
  | none =>
    right
    have bare : ∀ other ∈ second, covers other = false := by
      rw [governing, getLast?_eq_none_iff, filter_eq_nil_iff] at later
      exact fun other mem => by simpa using later other mem
    exact ⟨governing_append_of_not_covers first second bare ▸ gov, bare⟩

/-- An operation that governs and is not in the second part is in the first part, and nothing in
the second part covers the place. -/
theorem governing_append_of_not_mem (elsewhere : op ∉ second) :
    governing covers first = some op ∧ ∀ other ∈ second, covers other = false := by
  rcases governing_append_cases gov with inSecond | inFirst
  · exact absurd (of_governing inSecond).1 elsewhere
  · exact inFirst

end

/-- The block that the governing operation is in is the last one that covers the place. -/
theorem governing_flatMap_cases {Block : Type} (operationsOf : Block → List Operation)
    {blocks : List Block} {operation : Operation}
    (governs : governing covers (blocks.flatMap operationsOf) = some operation) :
    ∃ pre block after, blocks = pre ++ block :: after ∧
    governing covers (operationsOf block) = some operation ∧
    ∀ later ∈ after, ∀ other ∈ operationsOf later, covers other = false := by
  induction blocks with
  | nil => cases governs
  | cons block rest ih =>
    rw [flatMap_cons] at governs
    rcases governing_append_cases governs with inRest | ⟨inBlock, bare⟩
    · obtain ⟨pre, found, after, rfl, inFound, later⟩ := ih inRest
      exact ⟨block :: pre, found, after, rfl, inFound, later⟩
    · exact ⟨[], block, rest, rfl, inBlock, fun later mem other otherMem =>
        bare other (mem_flatMap.mpr ⟨later, mem, otherMem⟩)⟩

end

end CodexFormal.Foundation
