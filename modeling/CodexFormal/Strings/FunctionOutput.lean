import CodexFormal.Strings.Truncate

/-!
# Truncation of function output items

The items of a function's output are taken in order against one budget.  Every
item has a fate, and the output is what the fates leave of the items, followed
by the notices that count the omitted ones.
-/

set_option autoImplicit false

namespace CodexFormal.Strings

open Foundation Foundation.Json List
open Patch (Text)

def usizeMax : Nat := 2 ^ 64 - 1

def approxTokenCount (text : Text) : Nat :=
  min (utf8Length text + (approxBytesPerToken - 1)) usizeMax / approxBytesPerToken

def approxBytesForTokens (tokens : Nat) : Nat := min (tokens * approxBytesPerToken) usizeMax

def truncateMiddleWithTokenBudget (s : Text) (maxTokens : Nat) : Option Text :=
  if s.isEmpty then some []
  else if 0 < maxTokens ∧ utf8Length s ≤ approxBytesForTokens maxTokens then some s
  else truncateWithByteEstimate s (approxBytesForTokens maxTokens) true

inductive TruncationPolicy where
  | bytes (budget : Nat)
  | tokens (budget : Nat)

namespace TruncationPolicy

def budget : TruncationPolicy → Nat
  | .bytes budget | .tokens budget => budget

def withBudget (remaining : Nat) : TruncationPolicy → TruncationPolicy
  | .bytes _ => .bytes remaining
  | .tokens _ => .tokens remaining

end TruncationPolicy

def truncateText (content : Text) : TruncationPolicy → Option Text
  | .bytes bytes => truncateMiddleChars content bytes
  | .tokens tokens => truncateMiddleWithTokenBudget content tokens

/-- An image stands for its source and its detail. -/
inductive ContentItem (Image : Type) where
  | inputText (text : Text)
  | inputImage (image : Image)
  | inputAudio (audioUrl : Text)
  | encryptedContent (content : Text)

variable {Image : Type}

def TruncationPolicy.cost (policy : TruncationPolicy) (estimateAudioTokenCount : Text → Nat) :
    ContentItem Image → Nat
  | .inputText text =>
    match policy with
    | .bytes _ => utf8Length text
    | .tokens _ => approxTokenCount text
  | .inputAudio audioUrl =>
    match policy with
    | .bytes _ => approxBytesForTokens (estimateAudioTokenCount audioUrl)
    | .tokens _ => estimateAudioTokenCount audioUrl
  | .inputImage _ | .encryptedContent _ => 0

structure Truncation (Image : Type) where
  out : List (ContentItem Image)
  remainingBudget : Nat
  omittedTextItems : Nat
  omittedAudioItems : Nat

namespace Truncation

variable (state : Truncation Image)

def keep (item : ContentItem Image) (cost : Nat) : Truncation Image :=
  { state with out := state.out ++ [item], remainingBudget := state.remainingBudget - cost }

def omitText (remaining : Nat) : Truncation Image :=
  { state with remainingBudget := remaining, omittedTextItems := state.omittedTextItems + 1 }

/-- One round of the loop.  Nothing stands for a slice inside a character. -/
def step (policy : TruncationPolicy) (estimateAudioTokenCount : Text → Nat)
    (state : Truncation Image) (item : ContentItem Image) : Option (Truncation Image) :=
  let cost := policy.cost estimateAudioTokenCount item
  match item with
  | .inputText text =>
    if text.isEmpty then some state
    else if state.remainingBudget = 0 then some (state.omitText 0)
    else if cost ≤ state.remainingBudget then some (state.keep item cost)
    else
      (truncateText text (policy.withBudget state.remainingBudget)).map fun snippet =>
        if snippet.isEmpty then state.omitText 0
        else state.keep (.inputText snippet) state.remainingBudget
  | .inputAudio _ =>
    if cost ≤ state.remainingBudget then some (state.keep item cost)
    else some { state with omittedAudioItems := state.omittedAudioItems + 1 }
  | .inputImage _ | .encryptedContent _ => some (state.keep item 0)

end Truncation

def omissionNotice (count : Nat) (kind : String) : List (ContentItem Image) :=
  if 0 < count then
    [.inputText ("[omitted ".toList ++ Json.nat count ++ kind.toList ++ " items ...]".toList)]
  else []

def truncateFunctionOutputItemsWithPolicy (items : List (ContentItem Image))
    (policy : TruncationPolicy) (estimateAudioTokenCount : Text → Nat) :
    Option (List (ContentItem Image)) :=
  (items.foldlM (Truncation.step policy estimateAudioTokenCount)
    ⟨[], policy.budget, 0, 0⟩).map fun state =>
      state.out ++ omissionNotice state.omittedTextItems " text" ++
        omissionNotice state.omittedAudioItems " audio"

inductive Fate where
  | kept
  | shortened (snippet : Text)
  | omitted
  | skipped
  deriving DecidableEq

def ContentItem.isWrittenText : ContentItem Image → Bool
  | .inputText text => !text.isEmpty
  | _ => false

def ContentItem.isAudio : ContentItem Image → Bool
  | .inputAudio _ => true
  | _ => false

def shown : ContentItem Image × Fate → Option (ContentItem Image)
  | (item, .kept) => some item
  | (_, .shortened snippet) => some (.inputText snippet)
  | _ => none

def isShortened : ContentItem Image × Fate → Bool
  | (_, .shortened _) => true
  | _ => false

def isOmitted (kind : ContentItem Image → Bool) (pair : ContentItem Image × Fate) : Bool :=
  kind pair.1 && pair.2 = .omitted

section Processed

variable (policy : TruncationPolicy) (estimateAudioTokenCount : Text → Nat)

/-- The fates that an item can have: empty text is skipped, other text can have any of the
other fates, audio is kept or omitted, and everything else is kept. -/
def Fits (pair : ContentItem Image × Fate) : Prop :=
  match pair.2 with
  | .skipped => pair.1 = .inputText []
  | .kept => pair.1 ≠ .inputText []
  | .omitted => pair.1.isWrittenText = true ∨ pair.1.isAudio = true
  | .shortened snippet => ∃ text remaining, pair.1 = .inputText text ∧ text ≠ [] ∧
      remaining < policy.cost estimateAudioTokenCount pair.1 ∧
      truncateText text (policy.withBudget remaining) = some snippet

def keptCost (pairs : List (ContentItem Image × Fate)) : Nat :=
  ((pairs.filter fun pair => pair.2 = .kept).map fun pair =>
    policy.cost estimateAudioTokenCount pair.1).sum

def remainingAfter (remaining : Nat) (pair : ContentItem Image × Fate) : Nat :=
  match pair.2 with
  | .kept => remaining - policy.cost estimateAudioTokenCount pair.1
  | .shortened _ => 0
  | .omitted | .skipped => remaining

structure Allowed (remaining : Nat) (pair : ContentItem Image × Fate) : Prop where
  fits : Fits policy estimateAudioTokenCount pair
  affordable : pair.2 = .kept → policy.cost estimateAudioTokenCount pair.1 ≤ remaining
  exhausted : remaining = 0 → pair.1.isWrittenText = true → pair.2 = .omitted

def Processed : Nat → List (ContentItem Image × Fate) → Prop
  | _, [] => True
  | remaining, pair :: rest => Allowed policy estimateAudioTokenCount remaining pair ∧
      Processed (remainingAfter policy estimateAudioTokenCount remaining pair) rest

variable (state : Truncation Image)

def Truncation.after (pair : ContentItem Image × Fate) : Truncation Image where
  out := state.out ++ (shown pair).toList
  remainingBudget := remainingAfter policy estimateAudioTokenCount state.remainingBudget pair
  omittedTextItems := state.omittedTextItems +
    if isOmitted ContentItem.isWrittenText pair then 1 else 0
  omittedAudioItems := state.omittedAudioItems +
    if isOmitted ContentItem.isAudio pair then 1 else 0

theorem truncateText_shortens {text : Text} {remaining : Nat} (pos : 0 < remaining)
    (exceeds : remaining < policy.cost estimateAudioTokenCount
    (.inputText text : ContentItem Image)) :
    ∃ snippet, truncateText text (policy.withBudget remaining) = some snippet ∧ snippet ≠ [] := by
  have cut : ∀ (maxBytes : Nat) (useTokens : Bool), 0 < maxBytes → maxBytes < utf8Length text →
      ∃ snippet, truncateWithByteEstimate text maxBytes useTokens = some snippet ∧
        snippet ≠ [] := by
    intro maxBytes useTokens some short
    obtain ⟨start, mid, finish, _, _, _, isCut⟩ :=
      truncateWithByteEstimate_parts useTokens some short
    refine ⟨_, isCut, ?_⟩
    cases useTokens <;> simp [formatTruncationMarker]
  cases policy with
  | bytes budget => exact cut remaining false pos exceeds
  | tokens budget =>
    have short : approxBytesForTokens remaining < utf8Length text := by
      simp only [TruncationPolicy.cost, approxTokenCount, approxBytesPerToken] at exceeds
      simp only [approxBytesForTokens, approxBytesPerToken]
      omega
    have some : 0 < approxBytesForTokens remaining := by
      simp only [approxBytesForTokens, approxBytesPerToken, usizeMax]
      omega
    have ne : text.isEmpty = false := by
      cases text with
      | nil => exact absurd short (Nat.not_lt_zero _)
      | cons c rest => rfl
    simp only [truncateText, TruncationPolicy.withBudget, truncateMiddleWithTokenBudget, ne,
      Bool.false_eq_true, if_false, if_neg fun fits : _ ∧ _ => absurd fits.2 (Nat.not_le.2 short)]
    exact cut _ true some short

open Truncation

open ContentItem

theorem Truncation.step_after (item : ContentItem Image) :
    ∃ fate, Allowed policy estimateAudioTokenCount state.remainingBudget (item, fate) ∧
    state.step policy estimateAudioTokenCount item =
    some (state.after policy estimateAudioTokenCount (item, fate)) := by
  cases item with
  | inputText text =>
    cases empty : text.isEmpty with
    | true =>
      refine ⟨.skipped, ⟨congrArg _ (isEmpty_iff.1 empty), nofun, fun _ wrote => ?_⟩, ?_⟩
      · simp [isWrittenText, empty] at wrote
      · simp [step, empty, after, shown, remainingAfter, isOmitted]
    | false =>
      have wrote : (inputText text : ContentItem Image).isWrittenText = true := by
        simp [isWrittenText, empty]
      have nonemptyText : text ≠ [] := isEmpty_eq_false_iff.1 empty
      simp only [step, empty, Bool.false_eq_true, if_false]
      by_cases exhausted : state.remainingBudget = 0
      · refine ⟨.omitted, ⟨.inl wrote, nofun, fun _ _ => rfl⟩, ?_⟩
        simp [exhausted, after, omitText, shown, remainingAfter, isOmitted, wrote, isAudio]
      · rw [if_neg exhausted]
        split
        next fits =>
          refine ⟨.kept, ⟨fun isEmpty => nonemptyText (inputText.inj isEmpty),
            fun _ => fits, fun none => absurd none exhausted⟩, ?_⟩
          simp [after, keep, shown, remainingAfter, isOmitted]
        next exceeds =>
          have exceeds := Nat.not_le.1 exceeds
          obtain ⟨snippet, isCut, ne⟩ :=
            truncateText_shortens policy estimateAudioTokenCount
              (Nat.pos_of_ne_zero exhausted) exceeds
          refine ⟨.shortened snippet, ⟨⟨text, _, rfl, nonemptyText, exceeds, isCut⟩, nofun,
            fun none => absurd none exhausted⟩, ?_⟩
          simp [isCut, ne, after, keep, shown, remainingAfter, isOmitted]
  | inputAudio audioUrl =>
    simp only [step]
    split
    next fits =>
      refine ⟨.kept, ⟨nofun, fun _ => fits, nofun⟩, ?_⟩
      simp [after, keep, shown, remainingAfter, isOmitted]
    · refine ⟨.omitted, ⟨.inr rfl, nofun, nofun⟩, ?_⟩
      simp [after, shown, remainingAfter, isOmitted, isWrittenText, isAudio]
  | _ =>
    refine ⟨.kept, ⟨nofun, fun _ => Nat.zero_le _, nofun⟩, ?_⟩
    simp [step, after, keep, shown, remainingAfter, isOmitted, TruncationPolicy.cost]

theorem Truncation.run_after (items : List (ContentItem Image)) (state : Truncation Image) :
    ∃ pairs, pairs.map Prod.fst = items ∧
    Processed policy estimateAudioTokenCount state.remainingBudget pairs ∧
    items.foldlM (step policy estimateAudioTokenCount) state =
    some (pairs.foldl (.after policy estimateAudioTokenCount) state) := by
  induction items generalizing state with
  | nil => exact ⟨[], rfl, trivial, rfl⟩
  | cons item items ih =>
    obtain ⟨fate, may, ran⟩ := state.step_after policy estimateAudioTokenCount item
    obtain ⟨pairs, isItems, processed, run⟩ :=
      ih (state.after policy estimateAudioTokenCount (item, fate))
    refine ⟨(item, fate) :: pairs, by rw [map_cons, isItems], ⟨may, processed⟩, ?_⟩
    rw [foldlM_cons, ran]
    exact run

theorem Truncation.foldl_after (pairs : List (ContentItem Image × Fate))
    (state : Truncation Image) :
    let final := pairs.foldl (after policy estimateAudioTokenCount) state
    final.out = state.out ++ pairs.filterMap shown ∧
      final.omittedTextItems =
        state.omittedTextItems + pairs.countP (isOmitted isWrittenText) ∧
      final.omittedAudioItems =
        state.omittedAudioItems + pairs.countP (isOmitted isAudio) := by
  induction pairs generalizing state with
  | nil => simp
  | cons pair pairs ih =>
    obtain ⟨out, text, audio⟩ := ih (state.after policy estimateAudioTokenCount pair)
    simp only [foldl_cons, countP_cons]
    rw [out, text, audio]
    refine ⟨?_, by simp only [after]; omega, by simp only [after]; omega⟩
    cases isShown : shown pair <;> simp [after, isShown]

variable {policy estimateAudioTokenCount} {remaining : Nat} {pairs : List (ContentItem Image ×
  Fate)}

section

variable (done : Processed policy estimateAudioTokenCount remaining pairs)

include done

theorem Processed.fits : ∀ pair ∈ pairs, Fits policy estimateAudioTokenCount pair := by
  induction pairs generalizing remaining with
  | nil => exact nofun
  | cons pair pairs ih => exact forall_mem_cons.2 ⟨done.1.fits, ih done.2⟩

theorem Processed.keptCost_le : keptCost policy estimateAudioTokenCount pairs ≤ remaining := by
  induction pairs generalizing remaining with
  | nil => exact Nat.zero_le _
  | cons pair pairs ih =>
    have later := ih done.2
    have affordable := done.1.affordable
    rcases pair with ⟨item, fate⟩
    cases fate with
    | kept =>
      have fits : policy.cost estimateAudioTokenCount item ≤ remaining := affordable rfl
      simp only [remainingAfter] at later
      simp only [keptCost, filter_cons, decide_true, if_true, map_cons, sum_cons] at later ⊢
      omega
    | shortened snippet => exact Nat.le_trans later (Nat.zero_le _)
    | _ => exact later

omit done in
theorem Processed.exhausted (done : Processed policy estimateAudioTokenCount 0 pairs) :
    ∀ pair ∈ pairs, pair.1.isWrittenText = true → pair.2 = .omitted := by
  induction pairs with
  | nil => exact nofun
  | cons pair pairs ih =>
    have stays : remainingAfter policy estimateAudioTokenCount 0 pair = 0 := by
      rw [remainingAfter]
      split <;> simp
    exact forall_mem_cons.2 ⟨done.1.exhausted rfl, ih (stays ▸ done.2)⟩

theorem Processed.pairwise : pairs.Pairwise fun earlier later => isShortened earlier = true →
    later.1.isWrittenText = true → later.2 = .omitted := by
  induction pairs generalizing remaining with
  | nil => exact List.Pairwise.nil
  | cons pair pairs ih =>
    refine List.Pairwise.cons (fun later mem shortened => ?_) (ih done.2)
    rcases pair with ⟨item, _ | snippet | _ | _⟩ <;> try cases shortened
    exact Processed.exhausted done.2 later mem

end

theorem countP_isShortened_le (fits : ∀ pair ∈ pairs, Fits policy estimateAudioTokenCount pair)
    (omitted : pairs.Pairwise fun earlier later => isShortened earlier = true →
    later.1.isWrittenText = true → later.2 = .omitted) : pairs.countP isShortened ≤ 1 := by
  induction omitted with
  | nil => exact Nat.zero_le _
  | @cons pair pairs more _ ih =>
    rw [forall_mem_cons] at fits
    rw [countP_cons]
    split
    next shortened =>
      rw [countP_eq_zero.2]
      intro later mem again
      have isOmitted := more later mem shortened
      rcases later with ⟨item, _ | snippet | _ | _⟩ <;> try cases again
      obtain ⟨text, _, rfl, ne, _⟩ := fits.2 _ mem
      cases isOmitted (by simpa [isWrittenText] using ne)
    · exact ih fits.2

end Processed

theorem truncateFunctionOutputItemsWithPolicy_fates (policy : TruncationPolicy)
    (estimateAudioTokenCount : Text → Nat) (items : List (ContentItem Image)) :
    ∃ pairs : List (ContentItem Image × Fate), pairs.map Prod.fst = items ∧
      truncateFunctionOutputItemsWithPolicy items policy estimateAudioTokenCount =
        some (pairs.filterMap shown ++
          omissionNotice (pairs.countP (isOmitted ContentItem.isWrittenText)) " text" ++
          omissionNotice (pairs.countP (isOmitted ContentItem.isAudio)) " audio") ∧
      (∀ pair ∈ pairs, Fits policy estimateAudioTokenCount pair) ∧
      keptCost policy estimateAudioTokenCount pairs ≤ policy.budget ∧
      pairs.countP isShortened ≤ 1 ∧
      pairs.Pairwise fun earlier later => isShortened earlier = true →
        later.1.isWrittenText = true → later.2 = .omitted := by
  obtain ⟨pairs, isItems, processed, run⟩ := Truncation.run_after policy
    estimateAudioTokenCount items ⟨[], policy.budget, 0, 0⟩
  obtain ⟨out, text, audio⟩ := Truncation.foldl_after policy estimateAudioTokenCount pairs
    ⟨[], policy.budget, 0, 0⟩
  refine ⟨pairs, isItems, ?_, processed.fits, processed.keptCost_le,
    countP_isShortened_le processed.fits processed.pairwise, processed.pairwise⟩
  rw [truncateFunctionOutputItemsWithPolicy, run, Option.map_some, out, text, audio]
  simp

end CodexFormal.Strings
