import Mathlib.Algebra.Order.BigOperators.Group.List
import Mathlib.Algebra.Order.Ring.Nat

/-!
# Compact JSON text

JSON as a compact serializer writes it: members in the order given, no blanks,
and in strings only the escapes that are required.  Sizes are counted in UTF-8
bytes.
-/

set_option autoImplicit false

namespace CodexFormal.Foundation.Json

open List

def utf8Length (text : List Char) : Nat :=
  (text.map Char.utf8Size).sum

def hexDigit (value : Nat) : Char :=
  if value < 10 then Char.ofNat (48 + value) else Char.ofNat (87 + value)

def escape (c : Char) : List Char :=
  if c = '"' then ['\\', '"']
  else if c = '\\' then ['\\', '\\']
  else if c.toNat = 8 then ['\\', 'b']
  else if c.toNat = 9 then ['\\', 't']
  else if c.toNat = 10 then ['\\', 'n']
  else if c.toNat = 12 then ['\\', 'f']
  else if c.toNat = 13 then ['\\', 'r']
  else if c.toNat < 32 then
    ['\\', 'u', '0', '0', hexDigit (c.toNat / 16), hexDigit (c.toNat % 16)]
  else [c]

def string (text : List Char) : List Char :=
  '"' :: (text.flatMap escape ++ ['"'])

def bool (value : Bool) : List Char :=
  if value then "true".toList else "false".toList

def nat (value : Nat) : List Char :=
  Nat.toDigits 10 value

def optional (render : List Char → List Char) : Option (List Char) → List Char
  | none => "null".toList
  | some text => render text

def commaSeparated : List (List Char) → List Char
  | [] => []
  | [part] => part
  | part :: rest => part ++ ',' :: commaSeparated rest

def array (elements : List (List Char)) : List Char :=
  '[' :: (commaSeparated elements ++ [']'])

/-- An object from its members, each a name and the text of its value. -/
def object (members : List (List Char × List Char)) : List Char :=
  '\x7b' :: (commaSeparated (members.map fun member => string member.1 ++ ':' :: member.2) ++
    ['\x7d'])

@[simp]
theorem utf8Length_nil : utf8Length [] = 0 := rfl

@[simp]
theorem utf8Length_cons (c : Char) (rest : List Char) :
    utf8Length (c :: rest) = c.utf8Size + utf8Length rest := by
  simp [utf8Length]

@[simp]
theorem utf8Length_append (first second : List Char) :
    utf8Length (first ++ second) = utf8Length first + utf8Length second := by
  simp [utf8Length]

theorem utf8Length_commaSeparated (parts : List (List Char)) :
    utf8Length (commaSeparated parts) = (parts.map fun part => utf8Length part + 1).sum - 1 := by
  induction parts with
  | nil => rfl
  | cons part rest ih =>
    cases rest with
    | nil => simp [commaSeparated]
    | cons next more =>
      have comma : Char.utf8Size ',' = 1 := by decide
      simp only [commaSeparated, utf8Length_append, utf8Length_cons, ih, comma, map_cons, sum_cons]
      omega

theorem utf8Length_array (elems : List (List Char)) :
    utf8Length (array elems) = (elems.map fun part => utf8Length part + 1).sum - 1 + 2 := by
  have opening : Char.utf8Size '[' = 1 := by decide
  have closing : Char.utf8Size ']' = 1 := by decide
  simp only [array, utf8Length_cons, utf8Length_append, utf8Length_commaSeparated, utf8Length_nil,
    opening, closing]
  omega

theorem utf8Length_object (members : List (List Char × List Char)) : utf8Length (object members) =
    (members.map fun member => utf8Length (string member.1) + utf8Length member.2 + 2).sum - 1 +
    2 := by
  have opening : Char.utf8Size '\x7b' = 1 := by decide
  have closing : Char.utf8Size '\x7d' = 1 := by decide
  have colon : Char.utf8Size ':' = 1 := by decide
  have parts : ((members.map fun member => string member.1 ++ ':' :: member.2).map fun part =>
      utf8Length part + 1) =
      members.map fun member => utf8Length (string member.1) + utf8Length member.2 + 2 := by
    rw [map_map]
    refine map_congr_left fun member _ => ?_
    simp only [Function.comp_apply, utf8Length_append, utf8Length_cons, colon]
    omega
  simp only [object, utf8Length_cons, utf8Length_append, utf8Length_commaSeparated, utf8Length_nil,
    opening, closing, parts]
  omega

theorem utf8Length_string_replicate (count : Nat) (c : Char) (plain : escape c = [c])
    (ascii : c.utf8Size = 1) : utf8Length (string (List.replicate count c)) = count + 2 := by
  have quote : Char.utf8Size '"' = 1 := by decide
  induction count with
  | zero => rfl
  | succ count ih =>
    simp only [string, utf8Length_cons, utf8Length_append, utf8Length_nil, replicate_succ,
      flatMap_cons, plain, ascii, quote] at ih ⊢
    omega

theorem utf8Length_array_le {smaller larger : List (List Char)} (sublist : smaller.Sublist larger) :
    utf8Length (array smaller) ≤ utf8Length (array larger) := by
  have parts : (smaller.map fun part => utf8Length part + 1).sum ≤
      (larger.map fun part => utf8Length part + 1).sum :=
    (sublist.map _).sum_le_sum fun _ _ => Nat.zero_le _
  rw [utf8Length_array, utf8Length_array]
  omega

end CodexFormal.Foundation.Json
