import Mathlib.Data.List.Basic

/-!
# Merge patches of the world state

A snapshot is persisted once in full and then by the patch that leads from each
snapshot to the next one.  In a patch `null` deletes a field, so a value whose
objects hold no `null` is rebuilt exactly.
-/

set_option autoImplicit false

namespace CodexFormal.WorldState

/-- A JSON value.  Booleans, numbers, strings and arrays are atoms: they are compared
and replaced whole.  An object is the chain of its fields. -/
inductive Value (Atom : Type) where
  | null
  | atom (content : Atom)
  | empty
  | field (key : String) (value rest : Value Atom)

inductive Kind (Atom : Type) where
  | null
  | atom (content : Atom)
  | object
  deriving DecidableEq

variable {Atom : Type}

namespace Value

def isObject : Value Atom → Bool
  | .empty | .field _ _ _ => true
  | .null | .atom _ => false

def isNull : Value Atom → Bool
  | .null => true
  | _ => false

def keys : Value Atom → List String
  | .field key _ rest => key :: rest.keys
  | _ => []

def get (key : String) : Value Atom → Option (Value Atom)
  | .field other value rest => if other = key then some value else rest.get key
  | _ => none

-- The fields of objects only are inserted and removed.
def insert : Value Atom → String → Value Atom → Value Atom
  | .field other old rest, key, value =>
    if other = key then .field key value rest else .field other old (rest.insert key value)
  | _, key, value => .field key value .empty

def remove (key : String) : Value Atom → Value Atom
  | .field other value rest =>
    if other = key then rest.remove key else .field other value (rest.remove key)
  | _ => .empty

def kind : Value Atom → Kind Atom
  | .null => .null
  | .atom content => .atom content
  | .empty | .field _ _ _ => .object

def kindAt (value : Value Atom) : List String → Option (Kind Atom)
  | [] => some value.kind
  | key :: path => (value.get key).bind (fun found => found.kindAt path)

def paths : Value Atom → List (List String)
  | .field key value rest => value.paths.map (key :: ·) ++ rest.paths
  | _ => [[]]

/-- Equality of JSON values: the order of an object's fields does not count. -/
def equal [DecidableEq Atom] (value other : Value Atom) : Bool :=
  (value.paths ++ other.paths).all fun path => value.kindAt path = other.kindAt path

def HasDistinctKeys : Value Atom → Prop
  | .field key _ rest => rest.get key = none ∧ rest.HasDistinctKeys
  | _ => True

/-- In every object the keys are distinct and no field is `null`. -/
def IsStored : Value Atom → Prop
  | .field key value rest =>
    value ≠ .null ∧ value.IsStored ∧ rest.get key = none ∧ rest.IsStored
  | _ => True

end Value

open Value List

section Patches

variable [DecidableEq Atom]

/-- The first loop of a patch: the keys of the previous object that are gone. -/
def removals (previous current : Value Atom) : Value Atom :=
  previous.keys.foldl
    (fun patch key => if (current.get key).isSome then patch else patch.insert key .null) .empty

/-- The second loop of a patch.  The value inserted for a changed field is its own patch. -/
def changes : Value Atom → Value Atom → Value Atom → Value Atom
  | .field key value rest, previous, patch =>
    changes rest previous
      (match previous.get key with
      | none => patch.insert key value
      | some old =>
        if old.equal value then patch
        else patch.insert key
          (if value.isObject then changes value old (removals old value) else value))
  | _, _, patch => patch

def differencePatch (previous current : Value Atom) : Value Atom :=
  if current.isObject then changes current previous (removals previous current) else current

def createMergePatch (previous current : Value Atom) : Option (Value Atom) :=
  if previous.equal current then none else some (differencePatch previous current)

def mergePatchFrom (current previous : Value Atom) : Option (Value Atom) :=
  let patch := changes current previous (removals previous current)
  if patch.keys = [] then none else some patch

end Patches

def asObject (target : Value Atom) : Value Atom := if target.isObject then target else .empty

/-- Applies the fields of a patch to an object, one after the other. -/
def applyMergePatch : Value Atom → Value Atom → Value Atom
  | .field key value rest, target =>
    applyMergePatch rest
      (if value.isNull then target.remove key
      else target.insert key
        (if value.isObject then applyMergePatch value (asObject ((target.get key).getD .null))
        else value))
  | _, target => target

def applyMergePatchValue (target patch : Value Atom) : Value Atom :=
  if patch.isObject then applyMergePatch patch (asObject target) else patch

namespace Value

def Same (value other : Value Atom) : Prop := ∀ path, value.kindAt path = other.kindAt path

variable (value : Value Atom)

theorem Same.refl : value.Same value := fun _ => rfl

variable {value}

theorem kind_eq_object : value.kind = .object ↔ value.isObject = true := by
  cases value <;> simp [kind, isObject]

theorem get_of_not_object (scalar : value.isObject = false)
    (key : String) : value.get key = none := by
  cases value <;> simp_all [isObject, get]

theorem Same.get {value other : Value Atom} (same : value.Same other) (key : String) :
    Option.Rel Same (value.get key) (other.get key) := by
  have below := fun path => same (key :: path)
  simp only [kindAt] at below
  generalize value.get key = found at below ⊢
  generalize other.get key = counterpart at below ⊢
  cases found <;> cases counterpart
  · exact .none
  · simpa [kindAt] using below []
  · simpa [kindAt] using below []
  · exact .some below

theorem same_of_get {value other : Value Atom} (kinds : value.kind = other.kind)
    (fields : ∀ key, Option.Rel Same (value.get key) (other.get key)) : value.Same other := by
  intro path
  cases path with
  | nil => simp [kindAt, kinds]
  | cons key path =>
    have same := fields key
    simp only [kindAt]
    generalize value.get key = found at same ⊢
    generalize other.get key = counterpart at same ⊢
    cases same with
    | none => rfl
    | some same => exact same path

variable (target : Value Atom) (key : String)

@[simp] theorem isObject_insert (value : Value Atom) :
    (target.insert key value).isObject = true := by
  cases target with
  | field other old rest =>
    simp only [insert]
    split <;> rfl
  | _ => rfl

@[simp] theorem isObject_remove : (target.remove key).isObject = true := by
  induction target with
  | field other old rest _ ih =>
    simp only [remove]
    split
    · exact ih
    · rfl
  | _ => rfl

theorem get_insert (key other : String) (value : Value Atom) : (target.insert key value).get other =
    if other = key then some value else target.get other := by
  induction target with
  | field first old rest _ ih =>
    simp only [insert]
    split
    · simp only [get]
      grind
    · simp only [get, ih]
      grind
  | _ => simp [insert, get, eq_comm]

theorem get_remove (key other : String) :
    (target.remove key).get other = if other = key then none else target.get other := by
  induction target with
  | field first old rest _ ih =>
    simp only [remove]
    split
    · rw [ih]
      grind [Value.get]
    · simp only [get, ih]
      grind
  | _ => simp [remove, get]

theorem hasDistinctKeys_insert {target : Value Atom} (uniq : target.HasDistinctKeys)
    (key : String) (value : Value Atom) : (target.insert key value).HasDistinctKeys := by
  induction target with
  | field first old rest _ ih =>
    simp only [insert]
    split
    next isKey =>
      exact ⟨isKey ▸ uniq.1, uniq.2⟩
    next notKey =>
      refine ⟨?_, ih uniq.2⟩
      rw [get_insert, if_neg notKey, uniq.1]
  | _ => exact ⟨rfl, trivial⟩

theorem mem_keys_iff : key ∈ value.keys ↔ value.get key ≠ none := by
  induction value with
  | field other first rest _ ih =>
    simp only [keys, get, mem_cons, ih]
    grind
  | _ => simp [keys, get]

theorem IsStored.get {target found : Value Atom} {key : String} (held : target.IsStored)
    (isField : target.get key = some found) : found ≠ .null ∧ found.IsStored := by
  induction target with
  | field other value rest _ ih =>
    simp only [Value.get] at isField
    split at isField
    · exact Option.some.inj isField ▸ ⟨held.1, held.2.1⟩
    · exact ih held.2.2.2 isField
  | _ => cases isField

theorem IsStored.hasDistinctKeys (held : value.IsStored) : value.HasDistinctKeys := by
  induction value with
  | field key first rest _ ih => exact ⟨held.2.2.1, ih held.2.2.2⟩
  | _ => trivial

theorem mem_paths {path : List String} (isPath : value.kindAt path ≠ none) :
    path ∈ value.paths := by
  induction value generalizing path with
  | field key first rest ihFirst ihRest =>
    rw [paths, mem_append, mem_map]
    cases path with
    | nil => exact .inr (ihRest (Option.some_ne_none _))
    | cons wanted path =>
      simp only [kindAt, get] at isPath
      split at isPath
      next isKey =>
        exact .inl ⟨path, ihFirst isPath, by rw [isKey]⟩
      · exact .inr (ihRest isPath)
  | _ =>
    cases path with
    | nil => exact mem_singleton_self _
    | cons wanted path => exact absurd rfl isPath

theorem equal_iff [DecidableEq Atom] (value other : Value Atom) :
    value.equal other = true ↔ value.Same other := by
  simp only [equal, all_eq_true, decide_eq_true_eq, mem_append]
  refine ⟨fun agree path => ?_, fun same path _ => same path⟩
  by_contra differ
  by_cases isPath : value.kindAt path = none
  · exact differ (agree path (.inr (mem_paths fun none => differ (isPath.trans none.symm))))
  · exact differ (agree path (.inl (mem_paths isPath)))

end Value

theorem get_removalsLoop (current : Value Atom) (keys : List String) (patch : Value Atom)
    (key : String) : (keys.foldl (fun patch key =>
      if (current.get key).isSome then patch else patch.insert key .null) patch).get key =
      if key ∈ keys ∧ current.get key = none then some .null else patch.get key := by
  induction keys generalizing patch with
  | nil => simp
  | cons first rest ih =>
    rw [foldl_cons, ih]
    by_cases isFirst : key = first
    · subst isFirst
      cases current.get key <;> simp [get_insert]
    · have same : (patch.insert first .null).get key = patch.get key := by
        rw [get_insert, if_neg isFirst]
      simp only [mem_cons, isFirst, false_or]
      grind

theorem get_removals (prior current : Value Atom) (key : String) :
    (removals prior current).get key =
    if prior.get key ≠ none ∧ current.get key = none then some .null else none := by
  simp only [removals, get_removalsLoop, mem_keys_iff]
  rfl

theorem removals_distinct (prior current : Value Atom) :
    (removals prior current).HasDistinctKeys ∧ (removals prior current).isObject = true := by
  apply List.foldlRecOn (motive := fun patch : Value Atom =>
    patch.HasDistinctKeys ∧ patch.isObject = true)
  · exact ⟨trivial, rfl⟩
  · intro patch isPatch key _
    split
    · exact isPatch
    · exact ⟨hasDistinctKeys_insert isPatch.1 key _, isObject_insert _ _ _⟩

section Patches

variable [DecidableEq Atom]

theorem changes_distinct (current prior : Value Atom) {patch : Value Atom}
    (isPatch : patch.HasDistinctKeys ∧ patch.isObject = true) :
    (changes current prior patch).HasDistinctKeys ∧
    (changes current prior patch).isObject = true := by
  induction current generalizing patch with
  | field key value rest _ ihRest =>
    have added : ∀ fresh, (patch.insert key fresh).HasDistinctKeys ∧
        (patch.insert key fresh).isObject = true :=
      fun fresh => ⟨hasDistinctKeys_insert isPatch.1 key fresh, isObject_insert _ _ _⟩
    apply ihRest
    split
    · exact added _
    · split
      · exact isPatch
      · exact added _
  | _ => exact isPatch

variable {now : Value Atom}

theorem get_changes (uniq : now.HasDistinctKeys)
    (prior patch : Value Atom) (key : String) : (changes now prior patch).get key =
      match now.get key, prior.get key with
      | none, _ => patch.get key
      | some value, none => some value
      | some value, some old =>
        if old.equal value then patch.get key else some (differencePatch old value) := by
  induction now generalizing patch with
  | field first value rest _ ihRest =>
    simp only [changes]
    rw [ihRest uniq.2]
    by_cases isFirst : first = key
    · subst isFirst
      simp only [uniq.1, Value.get, if_pos]
      cases prior.get first with
      | none => simp [get_insert]
      | some old =>
        simp only
        split
        · rfl
        · simp [get_insert, differencePatch]
    · simp only [Value.get, if_neg isFirst]
      have same : ∀ fresh, (patch.insert first fresh).get key = patch.get key := by
        intro fresh
        rw [get_insert, if_neg (Ne.symm isFirst)]
      grind
  | _ => rfl

theorem get_patch (uniq : now.HasDistinctKeys) (prior : Value Atom) (key : String) :
    (changes now prior (removals prior now)).get key = match now.get key, prior.get key with
      | none, none => none
      | none, some _ => some .null
      | some value, none => some value
      | some value, some old => createMergePatch old value := by
  rw [get_changes uniq, get_removals]
  cases now.get key <;> cases prior.get key <;> simp [createMergePatch]

theorem differencePatch_distinct (held : now.IsStored)
    (prior : Value Atom) : (differencePatch prior now).HasDistinctKeys ∧
    (differencePatch prior now).isObject = now.isObject := by
  rw [differencePatch]
  split
  next object =>
    rw [object]
    exact changes_distinct now prior (removals_distinct _ _)
  · exact ⟨held.hasDistinctKeys, rfl⟩

theorem differencePatch_ne_null (notNull : now ≠ .null)
    (prior : Value Atom) : differencePatch prior now ≠ .null := by
  intro isNull
  rw [differencePatch] at isNull
  split at isNull
  · have object := (changes_distinct now prior (removals_distinct prior now)).2
    rw [isNull] at object
    cases object
  · exact notNull isNull

end Patches

def appliedField (old : Option (Value Atom)) (value : Value Atom) : Option (Value Atom) :=
  if value.isNull then none else some (applyMergePatchValue (old.getD .null) value)

theorem appliedField_of_ne_null {value : Value Atom} (notNull : value ≠ .null)
    (old : Option (Value Atom)) :
    appliedField old value = some (applyMergePatchValue (old.getD .null) value) := by
  cases value with
  | null => exact absurd rfl notNull
  | _ => rfl

variable {patch : Value Atom}

theorem get_applyMergePatch (uniq : patch.HasDistinctKeys)
    (target : Value Atom) (key : String) : (applyMergePatch patch target).get key =
      match patch.get key with
      | none => target.get key
      | some value => appliedField (target.get key) value := by
  induction patch generalizing target with
  | field first value rest _ ihRest =>
    simp only [applyMergePatch]
    rw [ihRest uniq.2]
    by_cases isFirst : first = key
    · subst isFirst
      simp only [uniq.1, Value.get, if_pos, appliedField]
      split <;> simp [get_remove, get_insert, applyMergePatchValue]
    · simp only [Value.get, if_neg isFirst, apply_ite (Value.get key), get_remove, get_insert,
        if_neg (Ne.symm isFirst), ite_self]
  | _ => rfl

theorem isObject_applyMergePatch (patch : Value Atom) {target : Value Atom}
    (object : target.isObject = true) : (applyMergePatch patch target).isObject = true := by
  induction patch generalizing target with
  | field first value rest _ ihRest =>
    apply ihRest
    split
    · exact isObject_remove _ _
    · exact isObject_insert _ _ _
  | _ => exact object

theorem asObject_spec (target : Value Atom) : (asObject target).isObject = true ∧
    ∀ key, (asObject target).get key = target.get key := by
  rw [asObject]
  split
  next object =>
    exact ⟨object, fun _ => rfl⟩
  next scalar =>
    exact ⟨rfl, fun key => (get_of_not_object (Bool.eq_false_iff.2 scalar) key).symm⟩

theorem applyMergePatchValue_spec (uniq : patch.HasDistinctKeys)
    (object : patch.isObject = true) (target : Value Atom) :
    (applyMergePatchValue target patch).kind = .object ∧
      ∀ key, (applyMergePatchValue target patch).get key = match patch.get key with
        | none => target.get key
        | some value => appliedField (target.get key) value := by
  rw [applyMergePatchValue, if_pos object, kind_eq_object]
  refine ⟨isObject_applyMergePatch _ (asObject_spec _).1, fun key => ?_⟩
  rw [get_applyMergePatch uniq, (asObject_spec _).2]

/-- As in every JSON text that was parsed: the keys of each object are distinct. -/
inductive Value.DistinctThroughout : Value Atom → Prop
  | intro {value : Value Atom} (own : value.HasDistinctKeys)
    (fields : ∀ key found, value.get key = some found → found.DistinctThroughout) :
    value.DistinctThroughout

/-- A patch that is applied once more changes nothing. -/
theorem applyMergePatchValue_twice (distinct : patch.DistinctThroughout) (target : Value Atom) :
    (applyMergePatchValue (applyMergePatchValue target patch) patch).Same
      (applyMergePatchValue target patch) := by
  intro path
  obtain ⟨own, fields⟩ := distinct
  cases object : patch.isObject with
  | false => simp [applyMergePatchValue, object]
  | true =>
    have spec := applyMergePatchValue_spec own object
    induction path generalizing target patch with
    | nil => rw [kindAt, kindAt, (spec _).1, (spec _).1]
    | cons key path ih =>
      simp only [kindAt, spec]
      cases isField : patch.get key with
      | none => rfl
      | some value =>
        by_cases isNull : value = .null
        · simp [isNull, appliedField, Value.isNull]
        · obtain ⟨own, fields⟩ := fields key value isField
          cases object : value.isObject with
          | false => simp [appliedField_of_ne_null isNull, applyMergePatchValue, object]
          | true =>
            simpa [appliedField_of_ne_null isNull] using
              ih _ own fields object (applyMergePatchValue_spec own object)

theorem removal_twice :
    let patch : Value Nat := .field "a" (.field "b" .null .empty) .empty
    let target : Value Nat := .field "a" (.field "b" (.atom 1) (.field "c" (.atom 2) .empty)) .empty
    (applyMergePatchValue (applyMergePatchValue target patch) patch).Same
      (applyMergePatchValue target patch) := by
  refine applyMergePatchValue_twice (.intro (by exact ⟨rfl, trivial⟩) fun key found isField => ?_) _
  simp only [Value.get] at isField
  split at isField <;> cases isField
  refine .intro (by exact ⟨rfl, trivial⟩) fun key found isField => ?_
  simp only [Value.get] at isField
  split at isField <;> cases isField
  exact .intro trivial fun _ _ none => by cases none

theorem kindAt_applyToNull (path : List String) {value : Value Atom} (held : value.IsStored) :
    (applyMergePatchValue .null value).kindAt path = value.kindAt path := by
  induction path generalizing value with
  | nil =>
    cases object : value.isObject with
    | true =>
      rw [kindAt, kindAt, (applyMergePatchValue_spec held.hasDistinctKeys object _).1,
        kind_eq_object.2 object]
    | false => simp [applyMergePatchValue, object]
  | cons key path ih =>
    cases object : value.isObject with
    | true =>
      simp only [kindAt, (applyMergePatchValue_spec held.hasDistinctKeys object _).2]
      cases isField : value.get key with
      | none => rfl
      | some found =>
        obtain ⟨notNull, foundStored⟩ := held.get isField
        simpa [appliedField_of_ne_null notNull, Value.get] using ih foundStored
    | false => simp [applyMergePatchValue, object]

section Patches

variable [DecidableEq Atom]

/-- The patch from one value to another leads to the other one, from every value that is
the same as the first. -/
theorem kindAt_applyDifference (path : List String) {target prior current : Value Atom}
    (same : target.Same prior) (held : current.IsStored) :
    (applyMergePatchValue target (differencePatch prior current)).kindAt path =
    current.kindAt path := by
  obtain ⟨uniq, patchObject⟩ := differencePatch_distinct held prior
  induction path generalizing target prior current with
  | nil =>
    cases object : current.isObject with
    | true =>
      rw [kindAt, kindAt, (applyMergePatchValue_spec uniq (patchObject.trans object) _).1,
        kind_eq_object.2 object]
    | false => simp [applyMergePatchValue, differencePatch, object]
  | cons key path ih =>
    cases object : current.isObject with
    | false => simp [applyMergePatchValue, differencePatch, object]
    | true =>
      simp only [kindAt, (applyMergePatchValue_spec uniq (patchObject.trans object) _).2]
      rw [differencePatch, if_pos object, get_patch held.hasDistinctKeys]
      have below := same.get key
      generalize target.get key = now at below ⊢
      cases isField : current.get key with
      | none =>
        cases wasField : prior.get key <;> rw [wasField] at below
        · cases below
          rfl
        · simp [appliedField, isNull]
      | some value =>
        obtain ⟨notNull, valueStored⟩ := held.get isField
        cases wasField : prior.get key with
        | none =>
          rw [wasField] at below
          cases below
          simpa [appliedField_of_ne_null notNull] using kindAt_applyToNull path valueStored
        | some old =>
          rw [wasField] at below
          cases below with
          | some sameOld =>
            by_cases unchanged : old.equal value = true
            · have sameValue := (equal_iff old value).1 unchanged
              simp [createMergePatch, unchanged, sameOld path, sameValue path]
            · obtain ⟨oldDistinct, oldObject⟩ := differencePatch_distinct valueStored old
              simpa [createMergePatch, unchanged,
                appliedField_of_ne_null (differencePatch_ne_null notNull old)]
                using ih sameOld valueStored oldDistinct oldObject

theorem mergePatchFrom_eq_none_iff {current prior : Value Atom}
    (held : current.IsStored) (object : current.isObject = true)
    (previousObject : prior.isObject = true) :
    mergePatchFrom current prior = none ↔ prior.Same current := by
  have noKeys : mergePatchFrom current prior = none ↔
      ∀ key, (changes current prior (removals prior current)).get key = none := by
    simp only [mergePatchFrom, ite_eq_left_iff, reduceCtorEq, imp_false, not_not,
      eq_nil_iff_forall_not_mem, mem_keys_iff]
  have field : ∀ key, (changes current prior (removals prior current)).get key = none ↔
      Option.Rel Same (prior.get key) (current.get key) := by
    intro key
    rw [get_patch held.hasDistinctKeys]
    cases current.get key <;> cases prior.get key
    · exact iff_of_true rfl .none
    · exact iff_of_false nofun nofun
    · exact iff_of_false nofun nofun
    · simp [createMergePatch, equal_iff]
  rw [noKeys, forall_congr' field]
  exact ⟨same_of_get ((kind_eq_object.2 previousObject).trans (kind_eq_object.2 object).symm),
    Same.get⟩

end Patches

/-- Builds an object anew from its fields that are not `null`, and so the objects in it. -/
def removeNullObjectFields : Value Atom → Value Atom
  | .field key value rest =>
    let fields := asObject (removeNullObjectFields rest)
    if value.isNull then fields else fields.insert key (removeNullObjectFields value)
  | value => value

theorem isStored_insert {target value : Value Atom} (held : target.IsStored)
    (notNull : value.isNull = false) (valueStored : value.IsStored) (key : String) :
    (target.insert key value).IsStored := by
  have here : value ≠ .null := by
    rintro rfl
    cases notNull
  induction target with
  | field first old rest _ ih =>
    simp only [Value.insert]
    split
    next isKey =>
      exact ⟨here, valueStored, isKey ▸ held.2.2.1, held.2.2.2⟩
    next notKey =>
      refine ⟨held.1, held.2.1, ?_, ih held.2.2.2⟩
      rw [get_insert, if_neg notKey, held.2.2.1]
  | _ => exact ⟨here, valueStored, rfl, trivial⟩

theorem isNull_of_isObject {value : Value Atom} (object : value.isObject = true) :
    value.isNull = false := by
  cases value with
  | null => cases object
  | _ => rfl

theorem removeNullObjectFields_spec (value : Value Atom) :
    (removeNullObjectFields value).IsStored ∧
    (removeNullObjectFields value).isNull = value.isNull := by
  induction value with
  | field key value rest ihValue ihRest =>
    have fields : (asObject (removeNullObjectFields rest)).IsStored := by
      rw [asObject]
      split
      · exact ihRest.1
      · trivial
    simp only [removeNullObjectFields]
    split
    · exact ⟨fields, isNull_of_isObject (asObject_spec _).1⟩
    next notNull =>
      rw [← ihValue.2, Bool.not_eq_true] at notNull
      exact ⟨isStored_insert fields notNull ihValue.1 key, isNull_of_isObject (isObject_insert ..)⟩
  | _ => exact ⟨trivial, rfl⟩

/-- No section is `null`, and no object has a field that is. -/
structure WorldStateSnapshot (Atom : Type) where
  sections : Value Atom
  isObject : sections.isObject = true
  stored : sections.IsStored

def WorldStateSnapshot.insert (snapshot : WorldStateSnapshot Atom) (id : String)
    (serialized : Value Atom) : WorldStateSnapshot Atom :=
  if notNull : (removeNullObjectFields serialized).isNull = false then
    { sections := snapshot.sections.insert id (removeNullObjectFields serialized)
      isObject := isObject_insert ..
      stored := isStored_insert snapshot.stored notNull (removeNullObjectFields_spec _).1 id }
  else snapshot

/-- From the sections with their ids; one that is not persisted or fails to serialize is `none`. -/
def snapshot (sections : List (String × Option (Value Atom))) : WorldStateSnapshot Atom :=
  sections.foldl (fun snapshot entry => entry.2.elim snapshot (snapshot.insert entry.1))
    ⟨.empty, rfl, trivial⟩

variable [DecidableEq Atom]

def persistedPatches : WorldStateSnapshot Atom → List (WorldStateSnapshot Atom) → List (Value Atom)
  | _, [] => []
  | previous, current :: later =>
    (mergePatchFrom current.sections previous.sections).toList ++
      persistedPatches current later

def replay (first : Value Atom) (patches : List (Value Atom)) : Value Atom :=
  patches.foldl (fun state patch => applyMergePatch patch state) first

theorem applyMergePatch_same {state : Value Atom} (prior current : WorldStateSnapshot Atom)
    {patch : Value Atom} (object : state.isObject = true) (same : state.Same prior.sections)
    (isPatch : mergePatchFrom current.sections prior.sections = some patch) :
    (applyMergePatch patch state).Same current.sections := by
  intro path
  rw [← kindAt_applyDifference path same current.stored]
  simp only [mergePatchFrom] at isPatch
  split at isPatch
  · cases isPatch
  · obtain rfl := Option.some.inj isPatch
    have patchObject := (changes_distinct current.sections prior.sections
      (removals_distinct prior.sections current.sections)).2
    rw [differencePatch, if_pos current.isObject, applyMergePatchValue, if_pos patchObject,
      asObject, if_pos object]

theorem replay_same {state : Value Atom} (first : WorldStateSnapshot Atom)
    (later : List (WorldStateSnapshot Atom)) (object : state.isObject = true)
    (same : state.Same first.sections) :
    (replay state (persistedPatches first later)).Same (later.getLastD first).sections := by
  induction later generalizing state first with
  | nil => exact same
  | cons current later ih =>
    rw [getLastD_cons, persistedPatches]
    cases isPatch : mergePatchFrom current.sections first.sections with
    | none =>
      have unchanged := (mergePatchFrom_eq_none_iff current.stored current.isObject
        first.isObject).1 isPatch
      exact ih current object fun path => (same path).trans (unchanged path)
    | some patch =>
      exact ih current (isObject_applyMergePatch patch object)
        (applyMergePatch_same first current object same isPatch)

theorem persistedPatches_replay_exactly :
    (∀ (first : WorldStateSnapshot Atom) (later : List (WorldStateSnapshot Atom)),
      (later.getLastD first).sections.equal
        (replay first.sections (persistedPatches first later)) = true) ∧
    ∀ previous current : WorldStateSnapshot Atom,
      mergePatchFrom current.sections previous.sections = none ↔
        previous.sections.equal current.sections = true := by
  constructor
  · intro first later
    rw [equal_iff]
    intro path
    exact (replay_same first later first.isObject (Same.refl _) path).symm
  · intro previous current
    rw [equal_iff, mergePatchFrom_eq_none_iff current.stored current.isObject previous.isObject]

end CodexFormal.WorldState
