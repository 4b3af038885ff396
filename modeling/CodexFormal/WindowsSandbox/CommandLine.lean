import CodexFormal.Patch.Text

/-!
# Windows command lines

Arguments are quoted for a command line that the started program splits again.
A run of backslashes is doubled only where a quote follows it, so the encoder
holds the run back until it sees the next character, and so does the splitter.
-/

set_option autoImplicit false

namespace CodexFormal.WindowsSandbox

open List

open Patch (Text)

def needsQuotes (arg : Text) : Bool :=
  arg.isEmpty || arg.any fun c => [' ', '\t', '\n', '\r', '"'].contains c

def quoteLoop (backslashes : Nat) : Text → Text
  | [] => replicate (backslashes * 2) '\\' ++ ['"']
  | c :: rest =>
    if c = '\\' then quoteLoop (backslashes + 1) rest
    else if c = '"' then
      replicate (backslashes * 2 + 1) '\\' ++ '"' :: quoteLoop 0 rest
    else replicate backslashes '\\' ++ c :: quoteLoop 0 rest

def quoteWindowsArg (arg : Text) : Text :=
  if needsQuotes arg then '"' :: quoteLoop 0 arg else arg

def argvToCommandLine (argv : List Text) : Text := [' '].intercalate (argv.map quoteWindowsArg)

variable (arg : Option Text) (backslashes : Nat)

def withBackslashes : Option Text :=
  if backslashes = 0 then arg else some (arg.getD [] ++ replicate backslashes '\\')

/-- Splits the rest of a line; `arg` is the argument begun so far, and the backslashes that
end it are counted until it is known what follows them. -/
def splitFrom (arg : Option Text) (quoted : Bool) (backslashes : Nat) : Text → List Text
  | [] => (withBackslashes arg backslashes).toList
  | c :: rest =>
    if c = '\\' then splitFrom arg quoted (backslashes + 1) rest
    else if c = '"' then
      let before := arg.getD [] ++ replicate (backslashes / 2) '\\'
      if backslashes % 2 = 1 then splitFrom (some (before ++ ['"'])) quoted 0 rest
      else splitFrom (some before) (!quoted) 0 rest
    else if (c = ' ' ∨ c = '\t') ∧ quoted = false then
      (withBackslashes arg backslashes).toList ++ splitFrom none false 0 rest
    else splitFrom (some ((withBackslashes arg backslashes).getD [] ++ [c])) quoted 0 rest

def splitCommandLine (line : Text) : List Text := splitFrom none false 0 line

theorem splitFrom_replicate (quoted : Bool) (held count : Nat) (rest : Text) :
    splitFrom arg quoted held (replicate count '\\' ++ rest) =
    splitFrom arg quoted (held + count) rest := by
  induction count generalizing held with
  | zero => rfl
  | succ count ih =>
    rw [replicate_succ, cons_append, splitFrom, if_pos rfl, ih]
    congr 1
    omega

theorem getD_withBackslashes (pre : Text) (backslashes : Nat) :
    (withBackslashes (some pre) backslashes).getD [] = pre ++ replicate backslashes '\\' := by
  unfold withBackslashes
  split
  next none =>
    simp [none]
  · rfl

theorem splitFrom_quoteLoop (pre : Text) (backslashes : Nat) (arg rest : Text) :
    splitFrom (some pre) true 0 (quoteLoop backslashes arg ++ rest) =
    splitFrom (some (pre ++ replicate backslashes '\\' ++ arg)) false 0 rest := by
  induction arg generalizing pre backslashes with
  | nil =>
    rw [quoteLoop, append_assoc, splitFrom_replicate, cons_append, splitFrom,
      if_neg (by decide), if_pos rfl]
    simp
  | cons c tail ih =>
    rw [quoteLoop]
    split
    next isBackslash =>
      rw [ih, isBackslash, replicate_succ', append_assoc, append_assoc, append_assoc]
      rfl
    next other =>
      split
      next isQuote =>
        have odd : (0 + (backslashes * 2 + 1)) % 2 = 1 := by omega
        have half : (0 + (backslashes * 2 + 1)) / 2 = backslashes := by omega
        rw [append_assoc, splitFrom_replicate, cons_append, splitFrom, if_neg (by decide),
          if_pos rfl, if_pos odd, half, ih, isQuote]
        simp
      next plain =>
        rw [append_assoc, splitFrom_replicate, cons_append, splitFrom, if_neg other,
          if_neg plain, if_neg (by simp), ih, getD_withBackslashes]
        simp

/-- The arguments after one that ends before `rest`. -/
def argsAfter : Text → List Text
  | [] => []
  | _ :: line => splitCommandLine line

def EndsArg (rest : Text) : Prop := rest = [] ∨ ∃ line, rest = ' ' :: line

variable {rest : Text}

theorem splitFrom_of_endsArg (ends : EndsArg rest) : splitFrom arg false backslashes rest =
    (withBackslashes arg backslashes).toList ++ argsAfter rest := by
  rcases ends with rfl | ⟨line, rfl⟩
  · exact (append_nil _).symm
  · rw [splitFrom, if_neg (by decide), if_neg (by decide), if_pos (by decide)]
    rfl

/-- Plain text continues an argument up to its end. -/
theorem splitFrom_plain (text : Text) {rest : Text}
    (plain : ∀ c ∈ text, c ≠ ' ' ∧ c ≠ '\t' ∧ c ≠ '"') (ends : EndsArg rest)
    (begun : text ≠ [] ∨ (withBackslashes arg backslashes).isSome) :
    splitFrom arg false backslashes (text ++ rest) =
    ((withBackslashes arg backslashes).getD [] ++ text) :: argsAfter rest := by
  induction text generalizing arg backslashes with
  | nil =>
    obtain ⟨whole, isWhole⟩ := Option.isSome_iff_exists.mp (begun.resolve_left (· rfl))
    rw [nil_append, splitFrom_of_endsArg arg backslashes ends, isWhole]
    simp
  | cons c tail ih =>
    obtain ⟨⟨noSpace, noTab, noQuote⟩, plainTail⟩ := forall_mem_cons.mp plain
    rw [cons_append, splitFrom, if_neg noQuote]
    split
    next isBackslash =>
      rw [ih _ _ plainTail (.inr (by simp [withBackslashes]))]
      unfold withBackslashes
      rw [if_neg (Nat.succ_ne_zero _), isBackslash, Option.getD_some, replicate_succ']
      split
      next none =>
        simp [none]
      · simp
    · rw [if_neg (by simp [noSpace, noTab]), ih _ _ plainTail (.inr rfl)]
      simp [withBackslashes]

theorem splitFrom_quoteWindowsArg (arg : Text) {rest : Text} (ends : EndsArg rest) :
    splitCommandLine (quoteWindowsArg arg ++ rest) = arg :: argsAfter rest := by
  unfold quoteWindowsArg
  split
  · rw [splitCommandLine, cons_append, splitFrom, if_neg (by decide), if_pos rfl]
    refine (splitFrom_quoteLoop [] 0 arg rest).trans ?_
    exact splitFrom_of_endsArg (some arg) 0 ends
  next unquoted =>
    simp only [needsQuotes, Bool.or_eq_true, not_or, List.isEmpty_iff, any_eq_true, not_exists,
      not_and] at unquoted
    refine splitFrom_plain none 0 arg ?_ ends (.inl unquoted.1)
    intro c mem
    have plain := unquoted.2 c mem
    refine ⟨?_, ?_, ?_⟩ <;> rintro rfl <;> exact plain (by decide)

/-- Every list of arguments comes back, empty arguments included. -/
theorem splitCommandLine_argvToCommandLine (argv : List Text) :
    splitCommandLine (argvToCommandLine argv) = argv := by
  induction argv with
  | nil => rfl
  | cons arg rest ih =>
    cases rest with
    | nil =>
      have single := splitFrom_quoteWindowsArg arg (.inl rfl : EndsArg [])
      simpa [argvToCommandLine, argsAfter] using single
    | cons next later =>
      have seam : EndsArg (' ' :: argvToCommandLine (next :: later)) := .inr ⟨_, rfl⟩
      have first := splitFrom_quoteWindowsArg arg seam
      rw [argsAfter, ih] at first
      exact first

end CodexFormal.WindowsSandbox
