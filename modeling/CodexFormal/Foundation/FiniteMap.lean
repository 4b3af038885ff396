import Mathlib.Algebra.GroupWithZero.Nat
import Mathlib.Data.Finmap

/-!
# Finite maps with a constant value type

Association lists with distinct keys.  The lookup equations rewrite any chain of
updates into a case split on the key that is read, and the weight equations
follow the sum of a measure over the values through an update.
-/

set_option autoImplicit false

namespace CodexFormal.Foundation

open List Option

universe u v

abbrev FiniteMap (Key : Type u) (Value : Type v) := AList (fun _ : Key => Value)

namespace FiniteMap

variable {Key : Type u} {Value : Type v} [DecidableEq Key] (map : FiniteMap Key Value)

def size : Nat := map.entries.length

def values : List Value := map.entries.map Sigma.snd

/-- Rewrites the value under `key`, if there is one. -/
def modify (key : Key) (update : Value → Value) : FiniteMap Key Value :=
  match map.lookup key with
  | some value => map.insert key (update value)
  | none => map

/-- An iteration order: what a hash map may make of its entries. -/
structure Arrangement (Entry : Type u) where
  arrange : List Entry → List Entry
  perm : ∀ entries, (arrange entries).Perm entries

theorem Arrangement.mem_arrange {Entry : Type u} (order : Arrangement Entry)
    (entries : List Entry) (entry : Entry) : entry ∈ order.arrange entries ↔ entry ∈ entries :=
  (order.perm entries).mem_iff

/-- Removes every entry whose key is not kept. -/
def retain (keep : Key → Bool) (map : FiniteMap Key Value) : FiniteMap Key Value :=
  ⟨map.entries.filter fun entry => keep entry.1,
    map.nodupKeys.sublist List.filter_sublist⟩

variable (map : FiniteMap Key Value) (key other : Key) (value : Value)

theorem lookup_insert_eq_ite : (map.insert key value).lookup other =
    if other = key then some value else map.lookup other := by
  by_cases same : other = key
  · subst other
    simp
  · rw [AList.lookup_insert_ne same, if_neg same]

theorem lookup_erase_eq_ite : (map.erase key).lookup other =
    if other = key then none else map.lookup other := by
  by_cases same : other = key
  · subst other
    simp
  · rw [AList.lookup_erase_ne same, if_neg same]

theorem lookup_modify_eq_ite (update : Value → Value) : (modify map key update).lookup other =
    if other = key then (map.lookup key).map update else map.lookup other := by
  cases found : map.lookup key with
  | some value =>
    simp only [modify, found, map_some]
    exact lookup_insert_eq_ite map key other (update value)
  | none =>
    simp only [modify, found, map_none]
    split
    next same =>
      rw [same, found]
    · rfl

/-- The sum of a measure over all values. -/
def weight (measure : Value → Nat) (map : FiniteMap Key Value) : Nat :=
  (map.entries.map fun entry => measure entry.2).sum

variable (measure : Value → Nat)

theorem sum_kerase_add_dlookup (key : Key) (entries : List (Sigma fun _ : Key => Value)) :
    ((entries.kerase key).map fun entry => measure entry.2).sum +
    ((entries.dlookup key).map measure).getD 0 =
    (entries.map fun entry => measure entry.2).sum := by
  induction entries with
  | nil => simp
  | cons entry rest ih =>
    obtain ⟨other, value⟩ := entry
    by_cases same : key = other
    · subst same
      simp [Nat.add_comm]
    · rw [kerase_cons_ne same, dlookup_cons_ne _ _ same]
      simp only [map_cons, sum_cons]
      omega

theorem weight_erase (map : FiniteMap Key Value) (key : Key) :
    weight measure (map.erase key) + ((map.lookup key).map measure).getD 0 = weight measure map :=
  sum_kerase_add_dlookup measure key map.entries

variable {map} in
theorem size_erase_lt {key : Key} {value : Value}
    (found : map.lookup key = some value) : size (map.erase key) < size map := by
  have erased := weight_erase (fun _ => 1) map key
  have sizes : ∀ other : FiniteMap Key Value, weight (fun _ => 1) other = size other := by
    intro other
    simp [weight, size]
  rw [sizes, sizes, found] at erased
  simp only [map_some, getD_some] at erased
  omega

theorem weight_insert (map : FiniteMap Key Value) (key : Key) (value : Value) :
    weight measure (map.insert key value) + ((map.lookup key).map measure).getD 0 =
    weight measure map + measure value := by
  rw [← weight_erase measure map key]
  simp only [weight, AList.entries_insert, map_cons, sum_cons, AList.erase]
  omega

theorem mem_entries_iff_lookup (key : Key) (value : Value) :
    (⟨key, value⟩ : Sigma fun _ : Key => Value) ∈ map.entries ↔ map.lookup key = some value := by
  exact (AList.mem_lookup_iff (s := map) (a := key) (b := value)).symm

theorem mem_values_iff : value ∈ values map ↔ ∃ key, map.lookup key = some value := by
  constructor
  · intro mem
    obtain ⟨⟨key, held⟩, entry, rfl⟩ := mem_map.mp mem
    exact ⟨key, (mem_entries_iff_lookup map key held).mp entry⟩
  · rintro ⟨key, found⟩
    exact mem_map.mpr ⟨⟨key, value⟩, (mem_entries_iff_lookup map key value).mpr found, rfl⟩

end FiniteMap

end CodexFormal.Foundation
