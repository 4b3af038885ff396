import CodexFormal.Foundation.JsonText
import CodexFormal.Foundation.NeedleChoice
import CodexFormal.Patch.Text

/-!
# Hidden inline tags in streamed text

The parser searches its pending text for the next opening or closing tag, and
holds back the longest end of it that the tag could still continue.  For a
single kind of tag the parser cannot tell where its input was cut: pushing two
chunks is pushing their concatenation.
-/

set_option autoImplicit false

namespace CodexFormal.StreamParser

open Foundation Patch List Option Search
open Json (utf8Length utf8Length_append utf8Length_cons)

structure StreamTextChunk (Extracted : Type) where
  visibleText : Text
  extracted : List Extracted
deriving DecidableEq, Repr

namespace StreamTextChunk

variable {Extracted : Type}

def isEmpty (chunk : StreamTextChunk Extracted) : Bool :=
  chunk.visibleText.isEmpty && chunk.extracted.isEmpty

def append (first second : StreamTextChunk Extracted) : StreamTextChunk Extracted :=
  ⟨first.visibleText ++ second.visibleText, first.extracted ++ second.extracted⟩

theorem append_assoc (first second third : StreamTextChunk Extracted) :
    (first.append second).append third = first.append (second.append third) := by
  simp [append]

end StreamTextChunk

structure ExtractedInlineTag (Tag : Type) where
  tag : Tag
  content : Text
deriving DecidableEq, Repr

structure InlineTagSpec (Tag : Type) where
  tag : Tag
  openTag : Text
  closeTag : Text
  openTag_ne_nil : openTag ≠ []
  closeTag_ne_nil : closeTag ≠ []

structure ActiveTag (Tag : Type) where
  tag : Tag
  closeTag : Text
  content : Text
  closeTag_ne_nil : closeTag ≠ []

structure InlineHiddenTagParser (Tag : Type) where
  specs : List (InlineTagSpec Tag)
  pending : Text
  active : Option (ActiveTag Tag)

/-- The largest length up to the bound at which the needle begins as the text ends. -/
def suffixPrefixLenUpTo (text needle : Text) : Nat → Nat
  | 0 => 0
  | bound + 1 =>
    if needle.take (bound + 1) <:+ text then bound + 1 else suffixPrefixLenUpTo text needle bound

def longestSuffixPrefixLen (text needle : Text) : Nat :=
  suffixPrefixLenUpTo text needle (min text.length (needle.length - 1))

namespace InlineHiddenTagParser

variable {Tag : Type}

/-- An earlier position, then a longer tag, then an earlier specification is preferred. -/
def preferredOpen (candidate best : Nat × Nat × InlineTagSpec Tag) :
    Nat × Nat × InlineTagSpec Tag :=
  let (candidatePos, candidateIdx, candidateSpec) := candidate
  let (bestPos, bestIdx, bestSpec) := best
  if candidatePos < bestPos ∨ candidatePos = bestPos ∧
      (utf8Length bestSpec.openTag < utf8Length candidateSpec.openTag ∨
        utf8Length bestSpec.openTag = utf8Length candidateSpec.openTag ∧ candidateIdx < bestIdx)
  then candidate else best

section

variable (specs : List (InlineTagSpec Tag))

def openCandidates (pending : Text) : List (Nat × Nat × InlineTagSpec Tag) :=
  specs.zipIdx.filterMap fun (spec, idx) =>
    (Search.find? spec.openTag pending).map fun pos => (pos, idx, spec)

def findNextOpen (pending : Text) : Option (Nat × InlineTagSpec Tag) :=
  match openCandidates specs pending with
  | [] => none
  | first :: others =>
    let (pos, _, spec) := others.foldl (fun best candidate => preferredOpen candidate best) first
    some (pos, spec)

def maxOpenPrefixSuffixLen (pending : Text) : Nat :=
  (specs.map fun spec => longestSuffixPrefixLen pending spec.openTag).max?.getD 0

end

theorem find?_of_findNextOpen (specs : List (InlineTagSpec Tag)) (pending : Text)
    (pos : Nat) (spec : InlineTagSpec Tag) (next : findNextOpen specs pending = some (pos, spec)) :
    find? spec.openTag pending = some pos := by
  have candidates : ∀ candidate ∈ openCandidates specs pending,
      find? candidate.2.2.openTag pending = some candidate.1 := by
    intro candidate mem
    obtain ⟨⟨listed, idx⟩, _, mapped⟩ := mem_filterMap.mp mem
    obtain ⟨found, position, rfl⟩ := map_eq_some_iff.mp mapped
    exact position
  have chosen : ∀ (others : List (Nat × Nat × InlineTagSpec Tag)) first,
      others.foldl (fun best candidate => preferredOpen candidate best) first ∈
        first :: others := by
    intro others
    induction others with
    | nil => exact fun first => mem_singleton_self first
    | cons candidate others ih =>
      intro first
      have rest := ih (preferredOpen candidate first)
      have either : preferredOpen candidate first = candidate ∨
        preferredOpen candidate first = first := ite_eq_or_eq _ _ _
      rcases mem_cons.mp rest with same | later
      · rw [foldl_cons, same]
        rcases either with same | same <;> simp [same]
      · exact mem_cons_of_mem _ (mem_cons_of_mem _ later)
  unfold findNextOpen at next
  cases listed : openCandidates specs pending with
  | nil => rw [listed] at next; cases next
  | cons first others =>
    rw [listed] at next
    simp only [some.injEq, Prod.mk.injEq] at next
    have found := candidates _ (listed ▸ chosen others first)
    rwa [next.1, next.2] at found

/-- The loop of `push_str`: what it puts out, and the pending text and open tag it leaves. -/
def pushLoop (specs : List (InlineTagSpec Tag)) (pending : Text) (active : Option (ActiveTag Tag)) :
    StreamTextChunk (ExtractedInlineTag Tag) × Text × Option (ActiveTag Tag) :=
  match active with
  | some active =>
    match _found : Search.find? active.closeTag pending with
    | some closeIdx =>
      let (out, rest) := pushLoop specs (pending.drop (closeIdx + active.closeTag.length)) none
      (StreamTextChunk.append
        ⟨[], [⟨active.tag, active.content ++ pending.take closeIdx⟩]⟩ out, rest)
    | none =>
      let taken := pending.length - longestSuffixPrefixLen pending active.closeTag
      (⟨[], []⟩, pending.drop taken,
        some { active with content := active.content ++ pending.take taken })
  | none =>
    match _found : findNextOpen specs pending with
    | some (openIdx, spec) =>
      let (out, rest) := pushLoop specs (pending.drop (openIdx + spec.openTag.length))
        (some ⟨spec.tag, spec.closeTag, [], spec.closeTag_ne_nil⟩)
      (StreamTextChunk.append ⟨pending.take openIdx, []⟩ out, rest)
    | none =>
      let taken := pending.length - maxOpenPrefixSuffixLen specs pending
      (⟨pending.take taken, []⟩, pending.drop taken, none)
termination_by pending.length
decreasing_by
  · have fits := Search.add_length_le_of_find?_eq_some _ _ _ _found
    have nonempty := List.length_pos_iff.mpr active.closeTag_ne_nil
    rw [List.length_drop]
    omega
  · have fits := Search.add_length_le_of_find?_eq_some _ _ _
      (find?_of_findNextOpen _ _ _ _ _found)
    have nonempty := List.length_pos_iff.mpr spec.openTag_ne_nil
    rw [List.length_drop]
    omega

def pushStr (parser : InlineHiddenTagParser Tag) (chunk : Text) :
    InlineHiddenTagParser Tag × StreamTextChunk (ExtractedInlineTag Tag) :=
  let (out, pending, active) := pushLoop parser.specs (parser.pending ++ chunk) parser.active
  (⟨parser.specs, pending, active⟩, out)

def finish (parser : InlineHiddenTagParser Tag) :
    InlineHiddenTagParser Tag × StreamTextChunk (ExtractedInlineTag Tag) :=
  match parser.active with
  | some active =>
    (⟨parser.specs, [], none⟩, ⟨[], [⟨active.tag, active.content ++ parser.pending⟩]⟩)
  | none => (⟨parser.specs, [], none⟩, ⟨parser.pending, []⟩)

end InlineHiddenTagParser

inductive CitationTag where
  | citation
deriving DecidableEq, Repr

def citationOpen : Text := "<oai-mem-citation>".toList

def citationClose : Text := "</oai-mem-citation>".toList

def citationSpec : InlineTagSpec CitationTag :=
  ⟨.citation, citationOpen, citationClose, by decide, by decide⟩

structure CitationStreamParser where
  inner : InlineHiddenTagParser CitationTag

namespace CitationStreamParser

def new : CitationStreamParser := ⟨[citationSpec], [], none⟩

def contents (chunk : StreamTextChunk (ExtractedInlineTag CitationTag)) : StreamTextChunk Text :=
  ⟨chunk.visibleText, chunk.extracted.map ExtractedInlineTag.content⟩

def pushStr (parser : CitationStreamParser) (chunk : Text) :
    CitationStreamParser × StreamTextChunk Text :=
  let (inner, out) := parser.inner.pushStr chunk
  (⟨inner⟩, contents out)

def finish (parser : CitationStreamParser) : CitationStreamParser × StreamTextChunk Text :=
  let (inner, out) := parser.inner.finish
  (⟨inner⟩, contents out)

end CitationStreamParser

def stripCitations (text : Text) : Text × List Text :=
  let (parser, out) := CitationStreamParser.new.pushStr text
  let (_, tail) := parser.finish
  (out.visibleText ++ tail.visibleText, out.extracted ++ tail.extracted)

theorem suffixPrefixLenUpTo_eq (text needle : Text) (length : Nat)
    (fits : length = 0 ∨ needle.take length <:+ text) (bound : Nat) (within : length ≤ bound)
    (longest : ∀ longer, length < longer → longer ≤ bound → ¬ needle.take longer <:+ text) :
    suffixPrefixLenUpTo text needle bound = length := by
  induction bound with
  | zero => exact (Nat.le_zero.mp within).symm
  | succ bound ih =>
    rw [suffixPrefixLenUpTo]
    by_cases here : length = bound + 1
    · rw [if_pos (by rw [← here]; exact fits.resolve_left (by omega)), here]
    · rw [if_neg (longest (bound + 1) (by omega) Nat.le.refl)]
      exact ih (by omega) fun longer more less => longest longer more (by omega)

theorem longestSuffixPrefixLen_eq {text needle : Text}
    (gone : ¬ needle <+: text.drop (firstOverlap needle text)) :
    longestSuffixPrefixLen text needle = text.length - firstOverlap needle text := by
  have isIn := firstOverlap_le needle text
  have continues := (overlaps_firstOverlap needle text).resolve_left gone
  have short : text.length - firstOverlap needle text < needle.length := by
    rw [← length_drop]
    refine Nat.lt_of_le_of_ne continues.length_le fun sameLength => gone ?_
    exact (continues.eq_of_length sameLength).symm ▸ prefix_rfl
  have kept : needle.take (text.length - firstOverlap needle text) =
      text.drop (firstOverlap needle text) := by
    rw [prefix_iff_eq_take.mp continues, length_drop]
  refine suffixPrefixLenUpTo_eq text needle _ (.inr (kept ▸ drop_suffix _ text)) _ (by omega) ?_
  intro longer more less suffix
  have length : (needle.take longer).length = longer := by
    rw [length_take]
    omega
  -- a longer end would be an overlap at an earlier position
  refine not_overlaps_of_lt needle text (text.length - longer) (by omega) (.inr ?_)
  rw [← length, ← suffix_iff_eq_drop.mp suffix]
  exact take_prefix longer needle

namespace InlineHiddenTagParser

variable {Tag : Type}

/-- The order of the candidates. -/
def Prefers (candidate best : Nat × Nat × InlineTagSpec Tag) : Prop :=
  candidate.1 < best.1 ∨ candidate.1 = best.1 ∧
    (utf8Length best.2.2.openTag < utf8Length candidate.2.2.openTag ∨
      utf8Length best.2.2.openTag = utf8Length candidate.2.2.openTag ∧ candidate.2.1 < best.2.1)

instance (candidate best : Nat × Nat × InlineTagSpec Tag) : Decidable (Prefers candidate best) :=
  inferInstanceAs (Decidable (_ ∨ _))

theorem preferredOpen_eq (candidate best : Nat × Nat × InlineTagSpec Tag) :
    preferredOpen candidate best = if Prefers candidate best then candidate else best := rfl

instance : Std.Associative fun best candidate : Nat × Nat × InlineTagSpec Tag =>
    preferredOpen candidate best where
  assoc := by
    intro first second third
    simp only [preferredOpen_eq]
    by_cases left : Prefers second first
    · by_cases right : Prefers third second
      · have both : Prefers third first := by
          unfold Prefers at *
          omega
        simp only [if_pos left, if_pos right, if_pos both]
      · simp only [if_pos left, if_neg right]
    · by_cases right : Prefers third second
      · simp only [if_neg left, if_pos right]
      · have neither : ¬ Prefers third first := by
          unfold Prefers at *
          omega
        simp only [if_neg left, if_neg right, if_neg neither]

theorem utf8Length_lt_iff (text first second : Text) (isFirst : first <+: text)
    (isSecond : second <+: text) :
    utf8Length first < utf8Length second ↔ first.length < second.length := by
  have grows : ∀ short longer : Text, short <+: longer → short.length < longer.length →
      utf8Length short < utf8Length longer := by
    rintro short _ ⟨rest, rfl⟩ less
    cases rest with
    | nil => simp at less
    | cons char rest =>
      have pos := char.utf8Size_pos
      simp only [utf8Length_append, utf8Length_cons]
      omega
  have same : ∀ short longer : Text, short <+: longer → short.length = longer.length →
      utf8Length short = utf8Length longer := by
    intro short longer front sameLength
    rw [front.eq_of_length sameLength]
  rcases prefix_or_prefix_of_prefix isFirst isSecond with front | front
  · have within := front.length_le
    rcases Nat.lt_or_eq_of_le within with less | sameLength
    · exact iff_of_true (grows _ _ front less) less
    · rw [same _ _ front sameLength, sameLength]
      simp
  · have within := front.length_le
    rcases Nat.lt_or_eq_of_le within with less | sameLength
    · have more := grows _ _ front less
      exact iff_of_false (by omega) (by omega)
    · rw [same _ _ front sameLength, sameLength]
      simp

def bestCandidate (candidates : List (Nat × Nat × InlineTagSpec Tag)) :
    Option (Nat × Nat × InlineTagSpec Tag) :=
  match candidates with
  | [] => none
  | first :: others =>
    some (others.foldl (fun best candidate => preferredOpen candidate best) first)

theorem bestCandidate_cons (first : Nat × Nat × InlineTagSpec Tag)
    (more : List (Nat × Nat × InlineTagSpec Tag)) : bestCandidate (first :: more) =
      match bestCandidate more with
      | none => some first
      | some best => some (if Prefers best first then best else first) := by
  cases more with
  | nil => rfl
  | cons second more =>
    exact congrArg some foldl_assoc

def candidatesFrom (start : Nat) (specs : List (InlineTagSpec Tag)) (text : Text) :
    List (Nat × Nat × InlineTagSpec Tag) :=
  (specs.zipIdx start).filterMap fun (spec, idx) =>
    (Search.find? spec.openTag text).map fun pos => (pos, idx, spec)

theorem candidatesFrom_cons (start : Nat) (spec : InlineTagSpec Tag)
    (specs : List (InlineTagSpec Tag)) (text : Text) : candidatesFrom start (spec :: specs) text =
      match find? spec.openTag text with
      | none => candidatesFrom (start + 1) specs text
      | some pos => (pos, start, spec) :: candidatesFrom (start + 1) specs text := by
  unfold candidatesFrom
  rw [zipIdx_cons, filterMap_cons]
  simp only
  cases find? spec.openTag text <;> rfl

variable (specs : List (InlineTagSpec Tag)) (text : Text)

open InlineTagSpec

theorem bestCandidate_eq (start : Nat) :
    ((bestCandidate (candidatesFrom start specs text)).map fun best => (best.1, best.2.2)) =
    findLongest openTag specs text ∧
    ∀ best ∈ bestCandidate (candidatesFrom start specs text), start ≤ best.2.1 := by
  induction specs generalizing start with
  | nil =>
    refine ⟨?_, fun best found => by cases found⟩
    rw [findLongest_nil]
    rfl
  | cons spec specs ih =>
    obtain ⟨isNext, later⟩ := ih (start + 1)
    rw [findLongest_cons spec specs spec.openTag_ne_nil, candidatesFrom_cons]
    cases found : find? spec.openTag text with
    | none => exact ⟨isNext, fun best isBest => Nat.le_of_succ_le (later best isBest)⟩
    | some pos =>
      simp only
      rw [bestCandidate_cons, ← isNext]
      cases rest : bestCandidate (candidatesFrom (start + 1) specs text) with
      | none => simp [earlier]
      | some best =>
        have numbered := later best rest
        rw [rest] at isNext
        have occursBest := (findLongest_eq_some specs text _ _ isNext.symm).2.1
        have isAt := (find?_eq_some _ _ _ found).2
        simp only [map_some, earlier, mem_def, some.injEq, forall_eq']
        -- the number of a later specification is larger, so it does not decide
        have sameChoice : Prefers best (pos, start, spec) ↔ best.1 < pos ∨
              best.1 = pos ∧ spec.openTag.length < best.2.2.openTag.length := by
          unfold Prefers
          refine or_congr Iff.rfl (and_congr_right fun samePosition => ?_)
          simp only at samePosition
          rw [samePosition] at occursBest
          rw [← utf8Length_lt_iff _ _ _ isAt occursBest]
          simp only
          omega
        by_cases prefers : Prefers best (pos, start, spec)
        · rw [if_pos prefers, if_pos (sameChoice.mp prefers)]
          exact ⟨rfl, Nat.le_of_succ_le numbered⟩
        · rw [if_neg prefers, if_neg (sameChoice.not.mp prefers)]
          exact ⟨rfl, Nat.le_refl _⟩

theorem findNextOpen_eq : findNextOpen specs text = findLongest openTag specs text := by
  rw [← (bestCandidate_eq specs text 0).1]
  unfold findNextOpen
  change (match candidatesFrom 0 specs text with | [] => _ | first :: more => _) = _
  cases candidatesFrom 0 specs text <;> rfl

theorem maxOpenPrefixSuffixLen_eq (gone : findLongest openTag specs text = none) :
    maxOpenPrefixSuffixLen specs text = text.length - firstUnsettled openTag specs text := by
  unfold maxOpenPrefixSuffixLen
  induction specs with
  | nil =>
    rw [firstUnsettled_nil, Nat.sub_self]
    rfl
  | cons spec specs ih =>
    rw [findLongest_cons spec specs spec.openTag_ne_nil] at gone
    cases found : find? spec.openTag text with
    | some pos =>
      rw [found] at gone
      cases more : findLongest openTag specs text with
      | none => simp [more, earlier] at gone
      | some other =>
        simp only [more, earlier] at gone
        split at gone <;> cases gone
    | none =>
      rw [found] at gone
      have notHere : ¬ spec.openTag <+: text.drop (firstOverlap spec.openTag text) := by
        intro isAt
        rw [find?_eq, if_pos isAt] at found
        cases found
      have isIn : firstUnsettled openTag specs text ≤ text.length :=
        firstUnsettled_le specs text
      have insideHere := firstOverlap_le spec.openTag text
      rw [firstUnsettled_cons, map_cons, max?_cons, longestSuffixPrefixLen_eq notHere]
      have rest := ih gone
      cases more : (specs.map fun spec => longestSuffixPrefixLen text spec.openTag).max? with
      | none =>
        rw [more] at rest
        simp only [getD_none, getD_some, elim_none] at rest ⊢
        omega
      | some longest =>
        rw [more] at rest
        simp only [getD_some, elim_some] at rest ⊢
        omega

/-! ## Cuts in the input

What stands before the first place where a delimiter may start is shown, or absorbed by the
open tag. -/

section

variable (active : Option (ActiveTag Tag))

def absorb (body : Text) : Option (ActiveTag Tag) :=
  active.map fun tag => { tag with content := tag.content ++ body }

def shown (body : Text) : Text :=
  if active.isSome then [] else body

def closed : List (ExtractedInlineTag Tag) :=
  active.toList.map fun tag => ⟨tag.tag, tag.content⟩

end

variable (active : Option (ActiveTag Tag)) (first second : Text)

@[simp] theorem absorb_absorb :
    absorb (absorb active first) second = absorb active (first ++ second) := by
  cases active <;> simp [absorb]

@[simp] theorem shown_absorb : shown (absorb active first) second = shown active second := by
  cases active <;> rfl

theorem shown_append :
    shown active (first ++ second) = shown active first ++ shown active second := by
  cases active <;> rfl

/-- What the parser looks for, and what is open behind it. -/
def delimiters (specs : List (InlineTagSpec Tag)) :
    Option (ActiveTag Tag) → List (Text × Option (ActiveTag Tag))
  | some active => [(active.closeTag, none)]
  | none => specs.map fun spec =>
    (spec.openTag, some ⟨spec.tag, spec.closeTag, [], spec.closeTag_ne_nil⟩)

theorem findLongest_delimiters_active (active : ActiveTag Tag) (text : Text) :
    findLongest Prod.fst (delimiters specs (some active)) text =
      (find? active.closeTag text).map (·, active.closeTag, none) :=
  findLongest_singleton (active.closeTag, none) active.closeTag_ne_nil text

theorem findLongest_delimiters_none : findLongest Prod.fst (delimiters specs none) text =
    (findNextOpen specs text).map fun found => (found.1, found.2.openTag,
    some ⟨found.2.tag, found.2.closeTag, [], found.2.closeTag_ne_nil⟩) := by
  rw [delimiters, findLongest_map, findNextOpen_eq]

variable {specs} in
theorem pushLoop_found {pending : Text} {active : Option (ActiveTag Tag)} {pos : Nat} {delim : Text}
    {after : Option (ActiveTag Tag)}
    (found : findLongest Prod.fst (delimiters specs active) pending =
      some (pos, delim, after)) : pushLoop specs pending active =
      let rest := pushLoop specs (pending.drop (pos + delim.length)) after
      (.append
        ⟨shown active (pending.take pos), closed (absorb active (pending.take pos))⟩
        rest.1, rest.2) := by
  cases active with
  | some active =>
    rw [findLongest_delimiters_active] at found
    obtain ⟨closeIdx, isAt, isFound⟩ := map_eq_some_iff.mp found
    cases isFound
    rw [pushLoop]
    split
    next other same =>
      cases same.symm.trans isAt
      rfl
    next gone =>
      cases gone.symm.trans isAt
  | none =>
    rw [findLongest_delimiters_none] at found
    obtain ⟨⟨openIdx, spec⟩, isAt, isFound⟩ := map_eq_some_iff.mp found
    cases isFound
    conv_lhs => rw [pushLoop]
    split
    next other chosen same =>
      cases same.symm.trans isAt
      rfl
    next gone =>
      cases gone.symm.trans isAt

/-- Where the text may be continued to a delimiter. -/
def heldFrom (specs : List (InlineTagSpec Tag)) (active : Option (ActiveTag Tag)) (text : Text) :
    Nat :=
  Search.firstUnsettled Prod.fst (delimiters specs active) text

theorem pushLoop_absent (pending : Text) (active : Option (ActiveTag Tag))
    (gone : findLongest Prod.fst (delimiters specs active) pending = none) :
    pushLoop specs pending active =
    (⟨shown active (pending.take (heldFrom specs active pending)), []⟩,
    pending.drop (heldFrom specs active pending),
    absorb active (pending.take (heldFrom specs active pending))) := by
  have isIn : heldFrom specs active pending ≤ pending.length := firstUnsettled_le _ _
  cases active with
  | some active =>
    rw [findLongest_delimiters_active, map_eq_none_iff] at gone
    have notHere : ¬ active.closeTag <+: pending.drop (firstOverlap active.closeTag pending) := by
      intro isAt
      rw [find?_eq, if_pos isAt] at gone
      cases gone
    have held : heldFrom specs (some active) pending = firstOverlap active.closeTag pending :=
      firstUnsettled_singleton (active.closeTag, none) pending
    have taken : pending.length - longestSuffixPrefixLen pending active.closeTag =
        heldFrom specs (some active) pending := by
      rw [longestSuffixPrefixLen_eq notHere, ← held]
      omega
    rw [pushLoop]
    split
    next pos isAt =>
      cases isAt.symm.trans gone
    · simp only [taken]
      rfl
  | none =>
    rw [findLongest_delimiters_none, map_eq_none_iff] at gone
    have noOpen := (findNextOpen_eq specs pending).symm.trans gone
    have held : heldFrom specs none pending = firstUnsettled openTag specs pending :=
      firstUnsettled_map _ specs pending
    have taken : pending.length - maxOpenPrefixSuffixLen specs pending =
        heldFrom specs none pending := by
      rw [maxOpenPrefixSuffixLen_eq specs pending noOpen, ← held]
      omega
    rw [pushLoop]
    split
    next pos spec isAt =>
      cases isAt.symm.trans gone
    · simp only [taken]
      rfl

theorem delimiters_absorb
    (body : Text) : delimiters specs (absorb active body) = delimiters specs active := by
  cases active <;> rfl

theorem delimiters_ne_nil : ∀ delim ∈ delimiters specs active, delim.1 ≠ [] := by
  intro delim mem
  cases active with
  | some active =>
    rw [delimiters, mem_singleton] at mem
    rw [mem]
    exact active.closeTag_ne_nil
  | none =>
    obtain ⟨spec, _, rfl⟩ := mem_map.mp mem
    exact spec.openTag_ne_nil

theorem pushLoop_settled (pending more : Text) (active : Option (ActiveTag Tag)) :
    pushLoop specs (pending ++ more) active =
      let settled := pending.take (heldFrom specs active pending)
      let rest := pushLoop specs (pending.drop (heldFrom specs active pending) ++ more)
        (absorb active settled)
      (StreamTextChunk.append ⟨shown active settled, []⟩ rest.1, rest.2) := by
  have isIn : heldFrom specs active pending ≤ pending.length := firstUnsettled_le _ _
  have shift : findLongest Prod.fst (delimiters specs active) (pending ++ more) =
      (findLongest Prod.fst (delimiters specs active)
        (pending.drop (heldFrom specs active pending) ++ more)).map
        fun found => (heldFrom specs active pending + found.1, found.2) :=
    findLongest_settled _ pending more
  have heldShift : heldFrom specs active (pending ++ more) = heldFrom specs active pending +
      heldFrom specs active (pending.drop (heldFrom specs active pending) ++ more) :=
    firstUnsettled_append _ pending more
  generalize isHeld : heldFrom specs active pending = held at *
  have dropped : ∀ count, (pending ++ more).drop (held + count) =
      (pending.drop held ++ more).drop count := by
    intro count
    rw [← drop_drop, drop_append_of_le_length isIn]
  have taken : ∀ count, (pending ++ more).take (held + count) =
      pending.take held ++ (pending.drop held ++ more).take count := by
    intro count
    rw [take_add, take_append_of_le_length isIn, drop_append_of_le_length isIn]
  cases found : findLongest Prod.fst (delimiters specs active) (pending.drop held ++ more) with
  | none =>
    rw [found] at shift
    have later : findLongest Prod.fst
        (delimiters specs (absorb active (pending.take held))) (pending.drop held ++ more) =
          none := by
      rw [delimiters_absorb, found]
    have sameHeld : heldFrom specs (absorb active (pending.take held))
        (pending.drop held ++ more) = heldFrom specs active (pending.drop held ++ more) := by
      simp only [heldFrom, delimiters_absorb]
    rw [pushLoop_absent specs _ active shift]
    simp only [pushLoop_absent specs _ _ later, sameHeld, heldShift, dropped, taken,
      absorb_absorb, shown_absorb, shown_append, StreamTextChunk.append, append_nil]
  | some res =>
    obtain ⟨pos, delim, after⟩ := res
    rw [found] at shift
    have later : findLongest Prod.fst
        (delimiters specs (absorb active (pending.take held))) (pending.drop held ++ more) =
          some (pos, delim, after) := by
      rw [delimiters_absorb, found]
    rw [pushLoop_found shift]
    simp only [pushLoop_found later, Nat.add_assoc, dropped,
      taken, absorb_absorb, shown_absorb, shown_append, StreamTextChunk.append,
      append_assoc, nil_append]

theorem delimiters_unhidden
    (unhidden : Search.Unhidden openTag specs) (active : Option (ActiveTag Tag)) :
    Search.Unhidden Prod.fst (delimiters specs active) := by
  intro inner isInner outer isOuter hidden
  cases active with
  | some active =>
    rw [delimiters, mem_singleton] at isInner isOuter
    subst isInner
    subst isOuter
    have short := hidden.length_le
    have ne := length_pos_iff.mpr active.closeTag_ne_nil
    rw [length_dropLast] at short
    simp only at short
    omega
  | none =>
    obtain ⟨innerSpec, listedInner, rfl⟩ := mem_map.mp isInner
    obtain ⟨outerSpec, listedOuter, rfl⟩ := mem_map.mp isOuter
    exact unhidden innerSpec listedInner outerSpec listedOuter hidden

/-- Without hidden opening tags the loop may be interrupted anywhere. -/
theorem pushLoop_append (unhidden : Search.Unhidden openTag specs) (pending more : Text)
    (active : Option (ActiveTag Tag)) : pushLoop specs (pending ++ more) active =
      let first := pushLoop specs pending active
      let second := pushLoop specs (first.2.1 ++ more) first.2.2
      (first.1.append second.1, second.2) := by
  -- every delimiter inside the pending text shortens it
  induction size : pending.length using Nat.strong_induction_on generalizing pending active with
  | _ length ih =>
    subst size
    cases found : findLongest Prod.fst (delimiters specs active) pending with
    | none =>
      rw [pushLoop_absent specs pending active found]
      exact pushLoop_settled specs pending more active
    | some res =>
      obtain ⟨pos, delim, after⟩ := res
      have stands := findLongest_append (delimiters_unhidden specs unhidden active)
        pending more pos (delim, after) found
      obtain ⟨mem, isAt, isIn⟩ := findLongest_eq_some _ _ _ _ found
      have ne := length_pos_iff.mpr (delimiters_ne_nil specs active _ mem)
      have fits := isAt.length_le
      rw [length_drop] at fits
      simp only at ne fits
      rw [pushLoop_found stands, pushLoop_found found,
        drop_append_of_le_length (by omega), take_append_of_le_length (by omega),
        ih _ (by rw [length_drop]; omega) _ _ rfl]
      simp [StreamTextChunk.append_assoc]

theorem pushStr_append (parser : InlineHiddenTagParser Tag) (spec : InlineTagSpec Tag)
    (oneTag : parser.specs = [spec]) (first second : Text) : parser.pushStr (first ++ second) =
    (((parser.pushStr first).1.pushStr second).1,
    (parser.pushStr first).2.append ((parser.pushStr first).1.pushStr second).2) := by
  have unhidden : Search.Unhidden openTag [spec] := by
    intro inner isInner outer isOuter hidden
    rw [mem_singleton] at isInner isOuter
    rw [isInner, isOuter] at hidden
    have short := hidden.length_le
    have ne := length_pos_iff.mpr spec.openTag_ne_nil
    rw [length_dropLast] at short
    omega
  have split := pushLoop_append [spec] unhidden (parser.pending ++ first) second parser.active
  simp [pushStr, oneTag, ← append_assoc, split]

end InlineHiddenTagParser

end CodexFormal.StreamParser
