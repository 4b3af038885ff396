import CodexFormal.Patch.Text

/-!
# Looking for a run of lines

A pattern of lines is looked for in a file from some line on, with four
comparisons of decreasing strictness.  For a pattern that belongs to the end of
the file the search starts where the pattern would end the file.
-/

set_option autoImplicit false

namespace CodexFormal.Patch

open List

inductive ApplyPatchFileUpdateMode where
  | normalizeToLf
  | preserveLineEndings
deriving DecidableEq, Repr

def normaliseChar (c : Char) : Char :=
  if (0x2010 ≤ c.toNat && c.toNat ≤ 0x2015) || c.toNat == 0x2212 then '-'
  else if 0x2018 ≤ c.toNat && c.toNat ≤ 0x201B then Char.ofNat 0x27
  else if 0x201C ≤ c.toNat && c.toNat ≤ 0x201F then '"'
  else if c.toNat == 0xA0 || (0x2002 ≤ c.toNat && c.toNat ≤ 0x200A) || c.toNat == 0x202F ||
      c.toNat == 0x205F || c.toNat == 0x3000 then ' '
  else c

def normalise (line : Text) : Text := (trim line).map normaliseChar

def comparisons : List (Text → Text) := [id, trimEnd, trim, normalise]

/-- Whether the lines from an index on agree with the pattern, up to what the
comparison looks at. -/
def matchesAt (key : Text → Text) (lines pattern : List Text) (index : Nat) : Bool :=
  ((lines.drop index).take pattern.length).map key == pattern.map key

/-- The first match at or after an index, of a pattern no longer than the file. -/
def seekWith (key : Text → Text) (lines pattern : List Text) (searchStart : Nat) : Option Nat :=
  (List.range' searchStart (lines.length - pattern.length + 1 - searchStart)).find?
    (matchesAt key lines pattern)

/-- Where the search starts.  Only in the mode that keeps line endings does a
pattern for the end of the file respect the lines already passed. -/
def searchStart (lines pattern : List Text) (start : Nat) (eof : Bool)
    (mode : ApplyPatchFileUpdateMode) : Nat :=
  if eof then
    match mode with
    | .normalizeToLf => lines.length - pattern.length
    | .preserveLineEndings => max (lines.length - pattern.length) start
  else start

def seekSequence (lines pattern : List Text) (start : Nat) (eof : Bool)
    (mode : ApplyPatchFileUpdateMode) : Option Nat :=
  if pattern.isEmpty then some start
  else if lines.length < pattern.length then none
  else
    comparisons.findSome? fun key =>
      seekWith key lines pattern (searchStart lines pattern start eof mode)

theorem seekWith_spec {key : Text → Text} {lines pat : List Text} {start index : Nat}
    (found : seekWith key lines pat start = some index) :
    start ≤ index ∧ index ≤ lines.length - pat.length ∧ matchesAt key lines pat index = true := by
  have mem := mem_of_find?_eq_some found
  have agrees := find?_some found
  rw [mem_range'_1] at mem
  exact ⟨mem.1, by omega, agrees⟩

/-- A pattern is found within the file, no earlier than where the search starts;
an empty one is found where it is looked for. -/
theorem seekSequence_spec {lines pat : List Text} {start index : Nat} {eof : Bool}
    {mode : ApplyPatchFileUpdateMode} (found : seekSequence lines pat start eof mode = some index) :
    (pat = [] ∧ index = start) ∨ (pat ≠ [] ∧ pat.length ≤ lines.length ∧
    searchStart lines pat start eof mode ≤ index ∧ index + pat.length ≤ lines.length ∧
    ∃ key ∈ comparisons, matchesAt key lines pat index = true) := by
  unfold seekSequence at found
  split at found
  next empty =>
    exact .inl ⟨isEmpty_iff.mp empty, (Option.some.inj found).symm⟩
  next ne =>
    split at found
    · cases found
    · obtain ⟨key, mem, loc⟩ := exists_of_findSome?_eq_some found
      obtain ⟨after, pre, agrees⟩ := seekWith_spec loc
      refine .inr ⟨fun empty => ne (by simp [empty]), by omega, after, by omega, ?_⟩
      exact ⟨key, mem, agrees⟩

end CodexFormal.Patch
