import CodexFormal.StreamParser.InlineHiddenTag
import Mathlib.Data.Set.Finite.Lemmas

/-!
# Several hidden tags and a scan of the whole text

The parser takes an opening tag as soon as it stands in its buffer.  That is what a scan of
the whole text does as long as no longer opening tag that started at the same place or before
can still be completed: if no opening tag is contained in a proper beginning of another one.
-/

set_option autoImplicit false

namespace CodexFormal.StreamParser

open Foundation Patch List Option Search InlineTagSpec

namespace InlineHiddenTagParser

variable {Tag : Type}

/-- All chunks and the end of the stream. -/
def pushAll (parser : InlineHiddenTagParser Tag) :
    List Text → StreamTextChunk (ExtractedInlineTag Tag)
  | [] => parser.finish.2
  | chunk :: rest => (parser.pushStr chunk).2.append ((parser.pushStr chunk).1.pushAll rest)

/-- The scan from left to right: text up to an opening tag is visible, what follows up to the
closing tag or the end is extracted. -/
def scanTags (specs : List (InlineTagSpec Tag)) (text : Text) :
    StreamTextChunk (ExtractedInlineTag Tag) :=
  match _found : Search.findLongest InlineTagSpec.openTag specs text with
  | none => ⟨text, []⟩
  | some (position, spec) =>
    let body := text.drop (position + spec.openTag.length)
    match Search.find? spec.closeTag body with
    | none => ⟨text.take position, [⟨spec.tag, body⟩]⟩
    | some closeIdx =>
      StreamTextChunk.append ⟨text.take position, [⟨spec.tag, body.take closeIdx⟩]⟩
        (scanTags specs (body.drop (closeIdx + spec.closeTag.length)))
termination_by text.length
decreasing_by
  have inside := (Search.findLongest_eq_some _ _ _ _ _found).2.2
  have nonempty := List.length_pos_iff.mpr spec.openTag_ne_nil
  rw [List.length_drop, List.length_drop]
  omega

/-- The output of a loop and of the end of the stream. -/
def outcome (result : StreamTextChunk (ExtractedInlineTag Tag) × Text × Option (ActiveTag Tag)) :
    StreamTextChunk (ExtractedInlineTag Tag) :=
  result.1.append (InlineHiddenTagParser.mk [] result.2.1 result.2.2).finish.2

variable (specs : List (InlineTagSpec Tag))

open InlineHiddenTagParser

theorem pushAll_of_unhidden
    (unhidden : Search.Unhidden openTag specs) (chunks : List Text) (text : Text)
    (active : Option (ActiveTag Tag)) : (pushLoop specs text active).1.append
    (mk specs (pushLoop specs text active).2.1 (pushLoop specs text active).2.2 |>.pushAll chunks) =
    outcome (pushLoop specs (text ++ chunks.flatten) active) := by
  induction chunks generalizing text with
  | nil =>
    rw [flatten_nil, append_nil]
    unfold outcome
    generalize pushLoop specs text active = res
    obtain ⟨out, pending, _ | active⟩ := res <;> rfl
  | cons chunk rest ih =>
    have split := pushLoop_append specs unhidden text chunk active
    have later := ih (text ++ chunk)
    rw [split] at later
    rw [flatten_cons, ← append_assoc, ← later, pushAll]
    simp [pushStr, StreamTextChunk.append_assoc]

theorem outcome_append (pre : StreamTextChunk (ExtractedInlineTag Tag))
    (res : StreamTextChunk (ExtractedInlineTag Tag) × Text × Option (ActiveTag Tag)) :
    outcome (pre.append res.1, res.2) = pre.append (outcome res) :=
  StreamTextChunk.append_assoc _ _ _

variable (text : Text) (active : Option (ActiveTag Tag))

variable {specs text active} in
theorem outcome_absent (gone : findLongest Prod.fst (delimiters specs active) text = none) :
    outcome (pushLoop specs text active) = ⟨shown active text, closed (absorb active text)⟩ := by
  rw [pushLoop_absent specs text active gone]
  cases active with
  | none =>
    simp [outcome, finish, absorb, shown, closed, StreamTextChunk.append]
  | some active =>
    simp [outcome, finish, absorb, shown, closed, StreamTextChunk.append]

theorem outcome_eq_scanTags : outcome (pushLoop specs text none) = scanTags specs text := by
  induction size : text.length using Nat.strong_induction_on generalizing text with
  | _ length ih =>
    subst size
    have isNext := findLongest_delimiters_none specs text
    rw [findNextOpen_eq] at isNext
    rw [scanTags]
    split
    next gone =>
      rw [gone] at isNext
      exact outcome_absent isNext
    next pos spec found =>
      obtain ⟨_, _, isIn⟩ := findLongest_eq_some _ _ _ _ found
      have ne := length_pos_iff.mpr spec.openTag_ne_nil
      rw [found] at isNext
      rw [pushLoop_found isNext, outcome_append]
      have isClose := findLongest_delimiters_active specs
        ⟨spec.tag, spec.closeTag, [], spec.closeTag_ne_nil⟩
        (text.drop (pos + spec.openTag.length))
      simp only at isClose ⊢
      cases closes : find? spec.closeTag (text.drop (pos + spec.openTag.length)) with
      | none =>
        rw [closes] at isClose
        rw [outcome_absent isClose]
        simp [StreamTextChunk.append, shown, closed, absorb]
      | some closeIdx =>
        rw [closes] at isClose
        rw [pushLoop_found isClose, outcome_append,
          ih _ (by rw [length_drop, length_drop]; omega) _ rfl,
          ← StreamTextChunk.append_assoc]
        simp [StreamTextChunk.append, shown, closed, absorb]

theorem pushAll_eq_scanTags (unhidden : Search.Unhidden openTag specs) (chunks : List Text) :
    (mk specs [] none).pushAll chunks = scanTags specs chunks.flatten := by
  have run := pushAll_of_unhidden specs unhidden chunks [] none
  rw [nil_append, outcome_eq_scanTags] at run
  rw [← run, pushLoop_absent specs [] none rfl]
  simp [StreamTextChunk.append, absorb, shown]

theorem append_ne_empty {first second : StreamTextChunk (ExtractedInlineTag Tag)}
    (here : first ≠ ⟨[], []⟩ ∨ second ≠ ⟨[], []⟩) : first.append second ≠ ⟨[], []⟩ := by
  intro nothing
  obtain ⟨firstVisible, firstExtracted⟩ := first
  obtain ⟨secondVisible, secondExtracted⟩ := second
  simp only [StreamTextChunk.append, StreamTextChunk.mk.injEq, append_eq_nil_iff] at nothing
  obtain ⟨⟨rfl, rfl⟩, rfl, rfl⟩ := nothing
  exact here.elim (fun ne => ne rfl) fun ne => ne rfl

theorem pushLoop_leaves (here : active.isSome = true ∨ text ≠ []) :
    (pushLoop specs text active).1 ≠ ⟨[], []⟩ ∨
    (pushLoop specs text active).2.2.isSome = true ∨ (pushLoop specs text active).2.1 ≠ [] := by
  induction size : text.length using Nat.strong_induction_on generalizing text active with
  | _ length ih =>
    subst size
    cases found : findLongest Prod.fst (delimiters specs active) text with
    | none =>
      rw [pushLoop_absent specs text active found]
      cases active with
      | some active => exact .inr (.inl rfl)
      | none =>
        by_contra nothing
        simp only [not_or, not_not, StreamTextChunk.mk.injEq] at nothing
        obtain ⟨⟨taken, _⟩, _, dropped⟩ := nothing
        have whole := take_append_drop (heldFrom specs none text) text
        rw [dropped, append_nil] at whole
        refine (here.resolve_left (by simp)) ?_
        rw [← whole]
        exact taken
    | some res =>
      obtain ⟨pos, delim, after⟩ := res
      obtain ⟨mem, _, isIn⟩ := findLongest_eq_some _ _ _ _ found
      have ne := length_pos_iff.mpr (delimiters_ne_nil specs active _ mem)
      simp only at ne
      rw [pushLoop_found found]
      cases active with
      | some active =>
        left
        simp [StreamTextChunk.append, closed, absorb]
      | none =>
        have opens : after.isSome = true := by
          obtain ⟨spec, _, isDelimiter⟩ := mem_map.mp mem
          cases isDelimiter
          rfl
        rcases ih _ (by rw [length_drop]; omega)
          (text.drop (pos + delim.length)) after (.inl opens) rfl with
          output | later
        · exact .inl (append_ne_empty (.inr output))
        · exact .inr later

theorem pushAll_ne_empty (chunks : List Text) (pending : Text) (active : Option (ActiveTag Tag))
    (present : active.isSome = true ∨ pending ++ chunks.flatten ≠ []) :
    (mk specs pending active).pushAll chunks ≠ ⟨[], []⟩ := by
  induction chunks generalizing pending active with
  | nil =>
    rw [flatten_nil, append_nil] at present
    cases active with
    | some active => simp [pushAll, finish]
    | none => simpa [pushAll, finish] using present
  | cons chunk rest ih =>
    rw [pushAll]
    by_cases here : active.isSome = true ∨ pending ++ chunk ≠ []
    · rcases pushLoop_leaves specs (pending ++ chunk) active here with output | later
      · exact append_ne_empty (.inl output)
      · refine append_ne_empty (.inr (ih _ _ ?_))
        exact later.imp_right fun held nothing => held (append_eq_nil_iff.mp nothing).1
    · simp only [not_or, not_not] at here
      obtain ⟨closedTag, noText⟩ := here
      have later : rest.flatten ≠ [] := by
        rw [flatten_cons, ← append_assoc, noText, nil_append] at present
        exact present.resolve_left closedTag
      have inactive : active = none := by simpa using closedTag
      have quiet := pushLoop_absent specs [] none rfl
      refine append_ne_empty (.inr (ih _ _ (.inr ?_)))
      simp only [noText, inactive, quiet]
      simpa using later

theorem ends_of_only_tag {tag : Tag} {closeTag text : Text}
    {chunks : List Text} {pos : Nat} {extracted : ExtractedInlineTag Tag}
    (found : find? closeTag text = some pos)
    (only : StreamTextChunk.append ⟨[], [⟨tag, text.take pos⟩]⟩ ((mk specs [] none).pushAll
    (text.drop (pos + closeTag.length) :: chunks)) = ⟨[], [extracted]⟩) :
    text ++ chunks.flatten = extracted.content ++ closeTag := by
  have empty : (mk specs [] none).pushAll
      (text.drop (pos + closeTag.length) :: chunks) = ⟨[], []⟩ := by
    generalize (mk specs [] none).pushAll
      (text.drop (pos + closeTag.length) :: chunks) = rest at only ⊢
    obtain ⟨seen, tags⟩ := rest
    simp only [StreamTextChunk.append, nil_append, cons_append,
      StreamTextChunk.mk.injEq, List.cons.injEq] at only
    rw [only.1, only.2.2]
  have content : text.take pos = extracted.content := by
    rw [empty] at only
    simp only [StreamTextChunk.append, append_nil, StreamTextChunk.mk.injEq,
      List.cons.injEq, true_and, and_true] at only
    rw [← only]
  have noRest : text.drop (pos + closeTag.length) ++ chunks.flatten = [] := by
    by_contra present
    exact pushAll_ne_empty specs (text.drop (pos + closeTag.length) :: chunks) [] none
      (.inr present) empty
  obtain ⟨noText, noChunks⟩ := append_eq_nil_iff.mp noRest
  have isAt := (find?_eq_some _ _ _ found).2
  have atEnd : text.drop pos = closeTag := by
    have rest := (prefix_iff_eq_append.mp isAt).symm
    rw [drop_drop, noText, append_nil] at rest
    exact rest
  rw [noChunks, append_nil, ← content, ← atEnd, take_append_drop]

/-- The loop of an open tag that is closed in the chunk. -/
theorem pushAll_closes {active : ActiveTag Tag} {chunk : Text} (rest : List Text) {pos : Nat}
    (found : find? active.closeTag chunk = some pos) :
    (mk specs [] (some active)).pushAll (chunk :: rest) =
    StreamTextChunk.append ⟨[], [⟨active.tag, active.content ++ chunk.take pos⟩]⟩
    ((mk specs [] none).pushAll (chunk.drop (pos + active.closeTag.length) :: rest)) := by
  have isClose := findLongest_delimiters_active specs active chunk
  rw [found] at isClose
  have looped := pushLoop_found isClose
  simp only [pushAll, pushStr, nil_append, looped, StreamTextChunk.append_assoc]
  rfl

/-- A tag that is not closed in the first of two chunks might as well get them at once. -/
theorem pushAll_unclosed (active : ActiveTag Tag)
    (first second : Text) (gone : find? active.closeTag first = none) :
    (mk specs [] (some active)).pushAll [first, second] =
    (mk specs [] (some active)).pushAll [first ++ second] := by
  have isClose := findLongest_delimiters_active specs active first
  rw [gone] at isClose
  have looped := pushLoop_absent specs first (some active) isClose
  have joined := pushLoop_settled specs first second (some active)
  simp [pushAll, pushStr, looped, joined, StreamTextChunk.append_assoc]

/-- A tag that is all that a stream of two chunks gives takes the whole of them, or the whole
up to its closing tag at the end. -/
theorem pushAll_active (active : ActiveTag Tag)
    (fresh : active.content = []) (first second : Text) (extracted : ExtractedInlineTag Tag)
    (only : (mk specs [] (some active)).pushAll [first, second] =
    ⟨[], [extracted]⟩) : first ++ second = extracted.content ∨
    first ++ second = extracted.content ++ active.closeTag := by
  cases early : find? active.closeTag first with
  | some pos =>
    rw [pushAll_closes specs [second] early, fresh, nil_append] at only
    have ends := ends_of_only_tag _ early only
    rw [flatten_singleton] at ends
    exact .inr ends
  | none =>
    rw [pushAll_unclosed specs active first second early] at only
    cases late : find? active.closeTag (first ++ second) with
    | some pos =>
      rw [pushAll_closes specs [] late, fresh, nil_append] at only
      have ends := ends_of_only_tag _ late only
      rw [flatten_nil, append_nil] at ends
      exact .inr ends
    | none =>
      have isClose := findLongest_delimiters_active specs active (first ++ second)
      rw [late] at isClose
      have whole := outcome_absent isClose
      have isOutcome : (mk specs [] (some active)).pushAll
          [first ++ second] = outcome (pushLoop specs (first ++ second) (some active)) := by
        have looped := pushLoop_absent specs (first ++ second) (some active) isClose
        simp only [pushAll, pushStr, nil_append, looped]
        rfl
      rw [isOutcome, whole] at only
      simp only [closed, absorb, map_some, toList_some, map_cons,
        map_nil, StreamTextChunk.mk.injEq, List.cons.injEq, and_true, fresh,
        nil_append] at only
      left
      rw [← only.2]

variable {specs} in
theorem pushAll_opens {chunk : Text} {rest : List Text} {pos : Nat} {spec : InlineTagSpec Tag}
    (found : findLongest openTag specs chunk = some (pos, spec)) :
    (mk specs [] none).pushAll (chunk :: rest) =
    StreamTextChunk.append ⟨chunk.take pos, []⟩ ((mk specs []
    (some ⟨spec.tag, spec.closeTag, [], spec.closeTag_ne_nil⟩)).pushAll
    (chunk.drop (pos + spec.openTag.length) :: rest)) := by
  have isOpen := findLongest_delimiters_none specs chunk
  rw [findNextOpen_eq, found] at isOpen
  have looped := pushLoop_found isOpen
  simp only [pushAll, pushStr, nil_append, looped, StreamTextChunk.append_assoc]
  rfl

def Hides (specs : List (InlineTagSpec Tag)) (outer : InlineTagSpec Tag) : Prop :=
  ∃ inner ∈ specs, inner.openTag <:+: outer.openTag.dropLast

theorem exists_other_char (first second : Char) : ∃ other, other ≠ first ∧ other ≠ second := by
  by_contra none
  simp only [not_exists, not_and_or, not_not] at none
  rcases none 'a' with rfl | rfl
  · rcases none 'b' with same | rfl
    · exact absurd same (by decide)
    · rcases none 'c' with same | same <;> exact absurd same (by decide)
  · rcases none 'b' with rfl | same
    · rcases none 'c' with same | same <;> exact absurd same (by decide)
    · exact absurd same (by decide)

theorem scanTags_longest (spec : InlineTagSpec Tag)
    (openTag : Text) (isOpen : spec.openTag = openTag) (last : Char)
    (chosen : longestAt InlineTagSpec.openTag specs (openTag ++ [last]) = some spec)
    (unclosed : ∀ rest, spec.closeTag ≠ last :: rest) :
    scanTags specs (openTag ++ [last]) = ⟨[], [⟨spec.tag, [last]⟩]⟩ := by
  have found : findLongest InlineTagSpec.openTag specs (openTag ++ [last]) = some (0, spec) := by
    cases opened : openTag ++ [last] with
    | nil => simp at opened
    | cons sym rest =>
      rw [opened] at chosen
      rw [findLongest, chosen]
  have noClose : find? spec.closeTag [last] = none := by
    have gone : ¬ spec.closeTag <+: [last] := by
      rintro ⟨rest, whole⟩
      cases closes : spec.closeTag with
      | nil => exact spec.closeTag_ne_nil closes
      | cons sym more =>
        rw [closes, cons_append, List.cons.injEq] at whole
        exact unclosed more (by rw [closes, whole.1])
    rw [Search.find?, if_neg gone, Search.find?, if_neg spec.closeTag_ne_nil, map_none]
  have body : (openTag ++ [last]).drop (0 + spec.openTag.length) = [last] := by
    rw [isOpen, Nat.zero_add, drop_left]
  rw [scanTags]
  split
  next gone =>
    cases gone.symm.trans found
  next pos other same =>
    cases same.symm.trans found
    simp only [body, noClose, take_zero]

theorem unhidden_of_scanned (scanned : ∀ chunks : List Text,
    (mk specs [] none).pushAll chunks = scanTags specs chunks.flatten) :
    Search.Unhidden openTag specs := by
  by_contra hidden
  -- an opening tag of the greatest length that hides another one
  obtain ⟨outer, ⟨listed, inner, isInner, isIn⟩, most⟩ :
      ∃ outer ∈ {spec | spec ∈ specs ∧ Hides specs spec},
        ∀ other ∈ {spec | spec ∈ specs ∧ Hides specs spec},
        other.openTag.length ≤ outer.openTag.length := by
    refine Set.exists_max_image _ (fun spec : InlineTagSpec Tag => spec.openTag.length) ?_ ?_
    · exact (finite_toSet specs).subset fun spec mem => mem.1
    · simp only [Search.Unhidden, not_forall, not_not] at hidden
      obtain ⟨inner, isInner, outer, isOuter, holds⟩ := hidden
      exact ⟨outer, isOuter, inner, isInner, holds⟩
  obtain ⟨start, last, isOuter⟩ : ∃ start last, outer.openTag = start ++ [last] :=
    ⟨_, _, (dropLast_append_getLast outer.openTag_ne_nil).symm⟩
  rw [isOuter, dropLast_concat] at isIn
  -- the scan takes the outer tag, whatever character follows
  have sameBehind : ∀ behind : Char, longestAt openTag specs (start ++ [last] ++ [behind]) =
        longestAt openTag specs (start ++ [last]) := by
    intro behind
    refine longestAt_congr specs _ _ fun other isOther =>
      ⟨fun isAt => ?_, fun isAt => isAt.trans (prefix_append _ _)⟩
    rcases prefix_concat_iff.mp isAt with whole | within
    · have hides : Hides specs other := by
        refine ⟨inner, isInner, ?_⟩
        rw [whole, dropLast_concat]
        exact isIn.trans (prefix_append _ _).isInfix
      have longer := most other ⟨isOther, hides⟩
      rw [whole, isOuter] at longer
      simp at longer
    · exact within
  obtain ⟨taken, isTaken⟩ : ∃ taken, longestAt openTag specs (start ++ [last]) = some taken := by
    refine ne_none_iff_exists'.mp fun gone => ?_
    exact (longestAt_eq_none_iff specs _).mp gone outer listed (isOuter ▸ prefix_rfl)
  have takenOpen : taken.openTag = start ++ [last] := by
    have isAt := (longestAt_eq_some specs _ _ isTaken).2
    have longest := length_le_of_longestAt specs _ _ outer isTaken listed (isOuter ▸ prefix_rfl)
    rw [isOuter] at longest
    exact isAt.eq_of_length (Nat.le_antisymm isAt.length_le longest)
  -- the parser has taken an inner one before the last character arrives
  obtain ⟨⟨pos, early⟩, isEarly⟩ : ∃ found, findLongest openTag specs start = some found := by
    refine ne_none_iff_exists'.mp fun gone => ?_
    exact not_infix_of_findLongest_eq_none specs start gone inner isInner inner.openTag_ne_nil isIn
  obtain ⟨next, rest, isNext⟩ : ∃ next rest,
      start.drop (pos + early.openTag.length) ++ [last] = next :: rest := by
    cases start.drop (pos + early.openTag.length) with
    | _ => exact ⟨_, _, rfl⟩
  obtain ⟨behind, notNext, notClose⟩ := exists_other_char next (taken.closeTag.headD next)
  have unclosed : ∀ rest, taken.closeTag ≠ behind :: rest := by
    intro rest same
    rw [same] at notClose
    exact notClose rfl
  have scan := scanTags_longest specs taken _ takenOpen behind
    ((sameBehind behind).trans isTaken) unclosed
  have stream := scanned [start, [last, behind]]
  have flat : [start, [last, behind]].flatten = start ++ [last] ++ [behind] := by simp
  rw [flat, scan, pushAll_opens isEarly] at stream
  have only : (mk specs [] (some ⟨early.tag, early.closeTag, [], early.closeTag_ne_nil⟩)).pushAll
        [start.drop (pos + early.openTag.length), [last, behind]] =
      ⟨[], [⟨taken.tag, [behind]⟩]⟩ := by
    generalize (mk specs [] (some _)).pushAll _ = res at stream ⊢
    obtain ⟨seen, tags⟩ := res
    simp only [StreamTextChunk.append, StreamTextChunk.mk.injEq, append_eq_nil_iff,
      nil_append] at stream
    rw [stream.1.2, stream.2]
  have split : start.drop (pos + early.openTag.length) ++ [last, behind] =
      next :: (rest ++ [behind]) := by
    rw [← cons_append, ← isNext]
    simp
  rcases pushAll_active specs _ rfl _ _ _ only with whole | whole
  · rw [split, List.cons.injEq] at whole
    exact notNext whole.1.symm
  · rw [split, cons_append, List.cons.injEq] at whole
    exact notNext whole.1.symm

/-- The stream gives what the scan gives, however the text is cut, exactly if no opening tag is
contained in a proper beginning of another one. -/
theorem inlineTags_scanned_iff (specs : List (InlineTagSpec Tag)) :
    (∀ chunks : List Text,
      (InlineHiddenTagParser.mk specs [] none).pushAll chunks =
        scanTags specs chunks.flatten) ↔
      ∀ inner ∈ specs, ∀ outer ∈ specs, ¬ inner.openTag <:+: outer.openTag.dropLast :=
  ⟨unhidden_of_scanned specs, pushAll_eq_scanTags specs⟩

/-- One opening tag continues the other. -/
def shortSpec : InlineTagSpec Bool := ⟨false, ['a', 'b'], ['z'], by decide, by decide⟩

def longSpec : InlineTagSpec Bool := ⟨true, ['a', 'b', 'c'], ['z'], by decide, by decide⟩

/-- The shorter tag is taken before the longer one is complete. -/
theorem short_tag_taken_from_first_chunk :
    (InlineHiddenTagParser.mk [shortSpec, longSpec] [] none).pushAll [['a', 'b'], ['c']] =
        ⟨[], [⟨false, ['c']⟩]⟩ ∧
      scanTags [shortSpec, longSpec] [['a', 'b'], ['c']].flatten = ⟨[], [⟨true, []⟩]⟩ := by
  constructor
  · rw [pushAll_opens rfl]
    have looped := pushLoop_absent [shortSpec, longSpec] ['c']
      (some ⟨shortSpec.tag, shortSpec.closeTag, [], shortSpec.closeTag_ne_nil⟩) rfl
    have unclosed := pushAll_unclosed [shortSpec, longSpec]
      ⟨shortSpec.tag, shortSpec.closeTag, [], shortSpec.closeTag_ne_nil⟩ [] ['c'] rfl
    rw [show ['a', 'b'].drop (0 + shortSpec.openTag.length) = [] from rfl, unclosed]
    simp only [pushAll, pushStr, nil_append, looped]
    rfl
  · rw [scanTags]
    split
    next absent =>
      cases absent
    next position spec found =>
      cases found
      rfl

end InlineHiddenTagParser

end CodexFormal.StreamParser
