import CodexFormal.Foundation.ByteBudget
import CodexFormal.Patch.Text

/-!
# Truncation in the middle

A long string keeps its two ends, each up to half of a budget of bytes, with a
marker for what was removed between them.
-/

set_option autoImplicit false

namespace CodexFormal.Strings

open Foundation Foundation.Json List Bool
open Patch (Text)

def approxBytesPerToken : Nat := 4

def approxTokensFromByteCount (bytes : Nat) : Nat :=
  (bytes + (approxBytesPerToken - 1)) / approxBytesPerToken

def splitBudget (budget : Nat) : Nat × Nat := (budget / 2, budget - budget / 2)

variable (useTokens : Bool)

def formatTruncationMarker (removedCount : Nat) : Text :=
  if useTokens then "…".toList ++ Json.nat removedCount ++ " tokens truncated…".toList
  else "…".toList ++ Json.nat removedCount ++ " chars truncated…".toList

def removedUnits (removedBytes removedChars : Nat) : Nat :=
  if useTokens then approxTokensFromByteCount removedBytes else removedChars

structure SplitScan where
  prefixEnd : Nat
  suffixStart : Nat
  removedChars : Nat
  suffixStarted : Bool
deriving DecidableEq, Repr

def SplitScan.visit (beginningBytes tailStartTarget idx : Nat) (c : Char) (scan : SplitScan) :
    SplitScan :=
  let charEnd := idx + c.utf8Size
  if charEnd ≤ beginningBytes then { scan with prefixEnd := charEnd }
  else if tailStartTarget ≤ idx then
    if scan.suffixStarted then scan
    else { scan with suffixStart := idx, suffixStarted := true }
  else { scan with removedChars := scan.removedChars + 1 }

def scanChars (beginningBytes tailStartTarget : Nat) : Nat → Text → SplitScan → SplitScan
  | _, [], scan => scan
  | idx, c :: rest, scan =>
    scanChars beginningBytes tailStartTarget (idx + c.utf8Size) rest
      (scan.visit beginningBytes tailStartTarget idx c)

/-- A slice that is not at a character boundary would panic. -/
def splitString (s : Text) (beginningBytes endBytes : Nat) : Option (Nat × Text × Text) :=
  if s.isEmpty then some (0, [], [])
  else
    let len := utf8Length s
    let scan := scanChars beginningBytes (len - endBytes) 0 s
      { prefixEnd := 0, suffixStart := len, removedChars := 0, suffixStarted := false }
    let suffixStart := if scan.suffixStart < scan.prefixEnd then scan.prefixEnd
      else scan.suffixStart
    (splitAtByte scan.prefixEnd s).bind fun before =>
      (splitAtByte suffixStart s).map fun after => (scan.removedChars, before.1, after.2)

def truncateWithByteEstimate (s : Text) (maxBytes : Nat) (useTokens : Bool) : Option Text :=
  if s.isEmpty then some []
  else
    let totalChars := s.length
    if maxBytes = 0 then
      some (formatTruncationMarker useTokens (removedUnits useTokens (utf8Length s) totalChars))
    else if utf8Length s ≤ maxBytes then some s
    else
      let budgets := splitBudget maxBytes
      (splitString s budgets.1 budgets.2).map fun parts =>
        parts.2.1 ++ formatTruncationMarker useTokens
          (removedUnits useTokens (utf8Length s - maxBytes) parts.1) ++ parts.2.2

def truncateMiddleChars (s : Text) (maxBytes : Nat) : Option Text :=
  truncateWithByteEstimate s maxBytes false

section Scan

variable (frontBytes tailStartTarget : Nat)

theorem scanChars_append (first second : Text) (idx : Nat) (scan : SplitScan) :
    scanChars frontBytes tailStartTarget idx (first ++ second) scan =
      scanChars frontBytes tailStartTarget (idx + utf8Length first) second
        (scanChars frontBytes tailStartTarget idx first scan) := by
  induction first generalizing idx scan with
  | nil => rfl
  | cons c rest ih =>
    change scanChars frontBytes tailStartTarget (idx + c.utf8Size) (rest ++ second)
      (scan.visit frontBytes tailStartTarget idx c) = _
    rw [ih, utf8Length_cons, ← Nat.add_assoc]
    rfl

theorem scanChars_start (start : Text) (idx : Nat) (scan : SplitScan)
    (atStart : scan.prefixEnd = idx) (within : idx + utf8Length start ≤ frontBytes) :
    scanChars frontBytes tailStartTarget idx start scan =
      { scan with prefixEnd := idx + utf8Length start } := by
  induction start generalizing idx scan with
  | nil =>
    cases scan
    cases atStart
    rfl
  | cons c rest ih =>
    rw [utf8Length_cons] at within
    unfold scanChars
    have visited : scan.visit frontBytes tailStartTarget idx c =
        { scan with prefixEnd := idx + c.utf8Size } := if_pos (by omega)
    rw [visited, ih (idx + c.utf8Size) _ rfl (by omega), utf8Length_cons, Nat.add_assoc]

theorem scanChars_middle (mid : Text) (idx : Nat) (scan : SplitScan)
    (past : ∀ c rest, mid = c :: rest → frontBytes < idx + c.utf8Size)
    (early : ∀ pre c after, mid = pre ++ c :: after → idx + utf8Length pre < tailStartTarget) :
    scanChars frontBytes tailStartTarget idx mid scan =
      { scan with removedChars := scan.removedChars + mid.length } := by
  induction mid generalizing idx scan with
  | nil => rfl
  | cons c rest ih =>
    have exceeds := past c rest rfl
    have starts := early [] c rest rfl
    rw [utf8Length_nil] at starts
    unfold scanChars
    have visited : scan.visit frontBytes tailStartTarget idx c =
        { scan with removedChars := scan.removedChars + 1 } :=
      (if_neg (Nat.not_le.mpr exceeds)).trans (if_neg (by omega))
    rw [visited, ih (idx + c.utf8Size)]
    · rw [length_cons, Nat.add_assoc, Nat.add_comm 1]
    · intro next _ _
      omega
    · intro pre next after split
      have later := early (c :: pre) next after (by rw [split]; rfl)
      rw [utf8Length_cons] at later
      omega

section

variable (finish : Text) (idx : Nat) (scan : SplitScan) (past : frontBytes ≤ idx)
  (late : tailStartTarget ≤ idx)

include past late

theorem scanChars_finish (started : scan.suffixStarted = true) :
    scanChars frontBytes tailStartTarget idx finish scan = scan := by
  induction finish generalizing idx with
  | nil => rfl
  | cons c rest ih =>
    have pos := c.utf8Size_pos
    unfold scanChars
    have visited : scan.visit frontBytes tailStartTarget idx c = scan :=
      (if_neg (by omega)).trans ((if_pos late).trans (if_pos started))
    rw [visited]
    exact ih (idx + c.utf8Size) (by omega) (by omega)

/-- The tail starts at its first character, or at the end of the string if it is empty. -/
theorem scanChars_tail
    (fresh : scan.suffixStarted = false) (atEnd : scan.suffixStart = idx + utf8Length finish) :
    (scanChars frontBytes tailStartTarget idx finish scan).suffixStart = idx ∧
      (scanChars frontBytes tailStartTarget idx finish scan).prefixEnd = scan.prefixEnd ∧
      (scanChars frontBytes tailStartTarget idx finish scan).removedChars = scan.removedChars := by
  cases finish with
  | nil => exact ⟨atEnd, rfl, rfl⟩
  | cons c rest =>
    have pos := c.utf8Size_pos
    unfold scanChars
    have visited : scan.visit frontBytes tailStartTarget idx c =
        { scan with suffixStart := idx, suffixStarted := true } := by
      refine (if_neg (by omega)).trans ((if_pos late).trans (if_neg ?_))
      rw [fresh]
      exact false_ne_true
    rw [visited, scanChars_finish _ _ rest _ _ (by omega) (by omega) rfl]
    exact ⟨rfl, rfl, rfl⟩

end

end Scan

theorem splitString_parts {start mid finish : Text} {beginningBytes endBytes : Nat}
    (short : beginningBytes + endBytes < utf8Length (start ++ mid ++ finish))
    (longestStart : LongestPrefix (start ++ mid ++ finish) beginningBytes start)
    (longest : LongestSuffix (start ++ mid ++ finish) endBytes finish) :
    splitString (start ++ mid ++ finish) beginningBytes endBytes =
      some (mid.length, start, finish) := by
  have startWithin := longestStart.within
  have finishWithin := longest.within
  have total : utf8Length (start ++ mid ++ finish) =
      utf8Length start + utf8Length mid + utf8Length finish := by
    rw [utf8Length_append, utf8Length_append]
  have ne : (start ++ mid ++ finish).isEmpty = false := by
    rw [eq_false_iff]
    intro empty
    rw [isEmpty_iff.mp empty] at short
    exact Nat.not_lt_zero _ short
  -- The middle starts where the first budget ends and stops before the tail.
  have past : ∀ c rest, mid = c :: rest → beginningBytes < utf8Length start + c.utf8Size := by
    intro c rest isMiddle
    have split : start ++ mid ++ finish = start ++ c :: (rest ++ finish) := by
      rw [isMiddle]
      simp
    exact longestStart.next_exceeds split
  have early : ∀ pre c after, mid = pre ++ c :: after →
      utf8Length start + utf8Length pre < utf8Length (start ++ mid ++ finish) - endBytes := by
    intro pre c after isMiddle
    obtain ⟨front, last, isFront⟩ : ∃ front last, c :: after = front ++ [last] :=
      ⟨_, _, (dropLast_append_getLast (cons_ne_nil c after)).symm⟩
    have split : start ++ mid ++ finish = (start ++ pre ++ front) ++ last :: finish := by
      rw [isMiddle, isFront]
      simp
    have exceeds := longest.previous_exceeds split
    rw [total, isMiddle, isFront, utf8Length_append, utf8Length_append, utf8Length_cons,
      utf8Length_nil]
    omega
  have scanned : scanChars beginningBytes
      (utf8Length (start ++ mid ++ finish) - endBytes) 0 (start ++ mid ++ finish)
      { prefixEnd := 0, suffixStart := utf8Length (start ++ mid ++ finish), removedChars := 0,
        suffixStarted := false } =
      scanChars beginningBytes (utf8Length (start ++ mid ++ finish) - endBytes)
        (utf8Length start + utf8Length mid) finish
        { prefixEnd := utf8Length start, suffixStart := utf8Length (start ++ mid ++ finish)
          removedChars := mid.length
          suffixStarted := false } := by
    rw [append_assoc, scanChars_append, scanChars_append, Nat.zero_add,
      scanChars_start _ _ start 0 _ rfl (by omega), ← append_assoc,
      scanChars_middle _ _ mid _ _ past early, Nat.zero_add, Nat.zero_add]
  obtain ⟨suffixStart, prefixEnd, gone⟩ := scanChars_tail beginningBytes
    (utf8Length (start ++ mid ++ finish) - endBytes) finish
    (utf8Length start + utf8Length mid)
    { prefixEnd := utf8Length start, suffixStart := utf8Length (start ++ mid ++ finish)
      removedChars := mid.length
      suffixStarted := false } (by omega) (by omega) rfl total
  unfold splitString
  simp only [ne, false_eq_true, if_false, scanned, suffixStart, prefixEnd, gone]
  rw [if_neg (by omega), ← utf8Length_append, splitAtByte_append, append_assoc, splitAtByte_append]
  rfl

theorem truncateWithByteEstimate_parts {s : Text} {maxBytes : Nat} (useTokens : Bool)
    (pos : 0 < maxBytes) (exceeds : maxBytes < utf8Length s) :
    ∃ start mid finish, s = start ++ mid ++ finish ∧ LongestPrefix s (maxBytes / 2) start ∧
      LongestSuffix s (maxBytes - maxBytes / 2) finish ∧
      truncateWithByteEstimate s maxBytes useTokens =
        some (start ++ formatTruncationMarker useTokens
          (removedUnits useTokens (utf8Length s - maxBytes) mid.length) ++ finish) := by
  have short : maxBytes / 2 + (maxBytes - maxBytes / 2) < utf8Length s := by omega
  have longestStart := longestPrefix_takeWithin (maxBytes / 2) s
  have longest := longestSuffix_takeWithin (maxBytes - maxBytes / 2) s
  obtain ⟨mid, isText⟩ := exists_middle short longestStart longest
  refine ⟨_, mid, _, isText, longestStart, longest, ?_⟩
  have ne : s.isEmpty = false := by
    rw [eq_false_iff]
    intro empty
    rw [isEmpty_iff.mp empty] at exceeds
    exact Nat.not_lt_zero _ exceeds
  generalize takeWithin (maxBytes / 2) s = start at *
  generalize (takeWithin (maxBytes - maxBytes / 2) s.reverse).reverse = finish at *
  subst isText
  unfold truncateWithByteEstimate
  simp only [ne, false_eq_true, if_false, if_neg (Nat.ne_of_gt pos),
    if_neg (Nat.not_le.mpr exceeds), splitBudget,
    splitString_parts short longestStart longest, Option.map_some]

/-- A string above the budget keeps its longest ends within the two halves of the budget, and
the marker counts exactly the characters between them. -/
theorem truncateMiddleChars_eq (s : Text) (maxBytes : Nat) (positive : 0 < maxBytes) :
    (utf8Length s ≤ maxBytes → truncateMiddleChars s maxBytes = some s) ∧
    (maxBytes < utf8Length s → ∃ start middle finish, s = start ++ middle ++ finish ∧
      LongestPrefix s (maxBytes / 2) start ∧
      LongestSuffix s (maxBytes - maxBytes / 2) finish ∧
      truncateMiddleChars s maxBytes =
        some (start ++ formatTruncationMarker false middle.length ++ finish)) := by
  constructor
  · intro fits
    unfold truncateMiddleChars truncateWithByteEstimate
    split
    · rename_i empty
      rw [isEmpty_iff.mp empty]
    · simp [if_neg (Nat.ne_of_gt positive)]
  · exact truncateWithByteEstimate_parts false positive

theorem truncateMiddleChars_mixed_widths :
    (0 < 6) ∧ (6 < utf8Length ['a', 'é', '→', 'b', 'c']) ∧
      ∃ start middle finish, ['a', 'é', '→', 'b', 'c'] = start ++ middle ++ finish ∧
        truncateMiddleChars ['a', 'é', '→', 'b', 'c'] 6 =
          some (start ++ formatTruncationMarker false middle.length ++ finish) := by
  refine ⟨by decide, by decide, ?_⟩
  obtain ⟨start, middle, finish, isText, _, _, truncated⟩ :=
    (truncateMiddleChars_eq ['a', 'é', '→', 'b', 'c'] 6 (by decide)).2 (by decide)
  exact ⟨start, middle, finish, isText, truncated⟩

end CodexFormal.Strings
