import CodexFormal.StreamParser.TaggedLine

/-!
# Assistant text

Citations are taken out first, and in plan mode the visible rest goes through
the plan parser.  The text, the citations and the merged plan segments of a
whole stream do not depend on its chunks.
-/

set_option autoImplicit false

namespace CodexFormal.StreamParser

open Patch List

structure AssistantTextChunk where
  visibleText : Text
  citations : List Text
  planSegments : List ProposedPlanSegment
deriving DecidableEq, Repr

def AssistantTextChunk.append (first second : AssistantTextChunk) : AssistantTextChunk :=
  ⟨first.visibleText ++ second.visibleText, first.citations ++ second.citations,
    first.planSegments ++ second.planSegments⟩

structure AssistantTextStreamParser where
  planMode : Bool
  citations : CitationStreamParser
  plan : ProposedPlanParser

namespace AssistantTextStreamParser

def new (planMode : Bool) : AssistantTextStreamParser := ⟨planMode, .new, .new⟩

def parseVisibleText (parser : AssistantTextStreamParser) (visibleText : Text) :
    AssistantTextStreamParser × AssistantTextChunk :=
  if parser.planMode then
    let (plan, out) := parser.plan.pushStr visibleText
    ({ parser with plan := plan }, ⟨out.visibleText, [], out.extracted⟩)
  else (parser, ⟨visibleText, [], []⟩)

def pushStr (parser : AssistantTextStreamParser) (chunk : Text) :
    AssistantTextStreamParser × AssistantTextChunk :=
  let (citations, citationChunk) := parser.citations.pushStr chunk
  let (parser, out) :=
    parseVisibleText { parser with citations := citations } citationChunk.visibleText
  (parser, { out with citations := citationChunk.extracted })

def finish (parser : AssistantTextStreamParser) : AssistantTextStreamParser × AssistantTextChunk :=
  let (citations, citationChunk) := parser.citations.finish
  let (parser, out) :=
    parseVisibleText { parser with citations := citations } citationChunk.visibleText
  if parser.planMode then
    let (plan, tail) := parser.plan.finish
    let parser := { parser with plan := plan }
    if tail.isEmpty then (parser, { out with citations := citationChunk.extracted })
    else
      (parser, ⟨out.visibleText ++ tail.visibleText, citationChunk.extracted,
        out.planSegments ++ tail.extracted⟩)
  else (parser, { out with citations := citationChunk.extracted })

def streamFrom (parser : AssistantTextStreamParser) : List Text → AssistantTextChunk
  | [] => parser.finish.2
  | chunk :: rest =>
    let (parser, out) := parser.pushStr chunk
    out.append (parser.streamFrom rest)

def stream (planMode : Bool) (chunks : List Text) : AssistantTextChunk :=
  (new planMode).streamFrom chunks

end AssistantTextStreamParser

def joinPlanSegment : ProposedPlanSegment → List ProposedPlanSegment → List ProposedPlanSegment
  | .normal first, .normal second :: rest => .normal (first ++ second) :: rest
  | .proposedPlanDelta first, .proposedPlanDelta second :: rest =>
    .proposedPlanDelta (first ++ second) :: rest
  | segment, rest => segment :: rest

/-- Adjacent normal texts and adjacent plan deltas made one. -/
def mergePlanSegments (segments : List ProposedPlanSegment) : List ProposedPlanSegment :=
  segments.foldr joinPlanSegment []

namespace ProposedPlanSegment

def characters : ProposedPlanSegment → List ProposedPlanSegment
  | normal text => text.map fun c => normal [c]
  | proposedPlanDelta text => text.map fun c => proposedPlanDelta [c]
  | segment => [segment]

def Filled : ProposedPlanSegment → Prop
  | normal text => text ≠ []
  | proposedPlanDelta text => text ≠ []
  | _ => True

end ProposedPlanSegment

variable (first second : Text)

theorem joinPlanSegment_normal_append (rest : List ProposedPlanSegment) :
    joinPlanSegment (.normal first) (joinPlanSegment (.normal second) rest) =
    joinPlanSegment (.normal (first ++ second)) rest := by
  cases rest with
  | nil => rfl
  | cons next rest => cases next <;> simp [joinPlanSegment]

theorem joinPlanSegment_delta_append (rest : List ProposedPlanSegment) :
    joinPlanSegment (.proposedPlanDelta first) (joinPlanSegment (.proposedPlanDelta second) rest) =
    joinPlanSegment (.proposedPlanDelta (first ++ second)) rest := by
  cases rest with
  | nil => rfl
  | cons next rest => cases next <;> simp [joinPlanSegment]

theorem joinPlanSegment_eq_foldr_characters (seg : ProposedPlanSegment)
    (full : seg.Filled) (rest : List ProposedPlanSegment) :
    joinPlanSegment seg rest = seg.characters.foldr joinPlanSegment rest := by
  cases seg with
  | normal text =>
    induction text with
    | nil => exact absurd rfl full
    | cons c text ih =>
      cases text with
      | nil => rfl
      | cons next text =>
        have tail := ih (cons_ne_nil next text)
        rw [← singleton_append, ← joinPlanSegment_normal_append, tail]
        rfl
  | proposedPlanDelta text =>
    induction text with
    | nil => exact absurd rfl full
    | cons c text ih =>
      cases text with
      | nil => rfl
      | cons next text =>
        have tail := ih (cons_ne_nil next text)
        rw [← singleton_append, ← joinPlanSegment_delta_append, tail]
        rfl
  | _ => rfl

open ProposedPlanSegment

theorem mergePlanSegments_eq_characters (segs : List ProposedPlanSegment)
    (full : ∀ seg ∈ segs, seg.Filled) : mergePlanSegments segs =
    mergePlanSegments (segs.flatMap characters) := by
  induction segs with
  | nil => rfl
  | cons seg rest ih =>
    have restFilled := fun other mem => full other (mem_cons_of_mem seg mem)
    unfold mergePlanSegments at ih ⊢
    rw [foldr_cons, ih restFilled, flatMap_cons, foldr_append]
    exact joinPlanSegment_eq_foldr_characters seg (full seg mem_cons_self) _

theorem characters_mapSegment (seg : TaggedLineSegment PlanTag) :
    (mapSegment seg).characters = seg.characters.map mapSegment := by
  cases seg with
  | normal text => simp [mapSegment, characters, TaggedLineSegment.characters]
  | tagDelta tag text =>
    cases tag
    simp [mapSegment, characters, TaggedLineSegment.characters]
  | tagStart tag => cases tag; rfl
  | tagEnd tag => cases tag; rfl

theorem filled_mapSegment (seg : TaggedLineSegment PlanTag) (full : seg.Filled) :
    (mapSegment seg).Filled := by
  cases seg with
  | normal text => exact full
  | tagDelta tag text => cases tag; exact full
  | tagStart tag => cases tag; trivial
  | tagEnd tag => cases tag; trivial

structure SameCharacters (first second : StreamTextChunk ProposedPlanSegment) : Prop where
  visibleText : first.visibleText = second.visibleText
  segments : first.extracted.flatMap ProposedPlanSegment.characters =
    second.extracted.flatMap ProposedPlanSegment.characters

theorem visibleText_characters (seg : ProposedPlanSegment) :
    seg.characters.flatMap visibleText = seg.visibleText := by
  cases seg with
  | normal text =>
    induction text with
    | nil => rfl
    | cons c text ih =>
      simp only [characters, map_cons, flatMap_cons] at ih ⊢
      rw [ih]
      rfl
  | proposedPlanDelta text =>
    simp [characters, visibleText]
  | _ => rfl

theorem mapSegments_eq (segs : List (TaggedLineSegment PlanTag)) :
    (mapSegments segs).visibleText = ((charactersOf segs).map mapSegment).flatMap visibleText ∧
    (mapSegments segs).extracted.flatMap characters = (charactersOf segs).map mapSegment := by
  induction segs with
  | nil => exact ⟨rfl, rfl⟩
  | cons seg rest ih =>
    obtain ⟨seen, characters⟩ := ih
    constructor
    · simp only [mapSegments, charactersOf, map_cons, flatMap_cons, map_append,
        flatMap_append, ← characters_mapSegment, visibleText_characters] at seen ⊢
      rw [seen]
    · simp only [mapSegments, charactersOf, map_cons, flatMap_cons, map_append,
        ← characters_mapSegment] at characters ⊢
      rw [characters]

variable (plan : ProposedPlanParser)

open ProposedPlanParser

theorem ProposedPlanParser.pushStr_append (first second : Text) :
    (plan.pushStr (first ++ second)).1 = ((plan.pushStr first).1.pushStr second).1 ∧
    SameCharacters (plan.pushStr (first ++ second)).2
    ((plan.pushStr first).2.append ((plan.pushStr first).1.pushStr second).2) := by
  obtain ⟨sameParser, added⟩ := plan.parser.parse_append first second
  obtain ⟨seen, characters⟩ := mapSegments_eq (plan.parser.parse (first ++ second)).2
  obtain ⟨visibleFirst, charactersFirst⟩ := mapSegments_eq (plan.parser.parse first).2
  obtain ⟨visibleSecond, charactersSecond⟩ :=
    mapSegments_eq ((plan.parser.parse first).1.parse second).2
  refine ⟨congrArg mk sameParser, ?_, ?_⟩
  · simp [pushStr, StreamTextChunk.append, seen, visibleFirst, visibleSecond, added]
  · simp [pushStr, StreamTextChunk.append, characters, charactersFirst, charactersSecond, added]

theorem ProposedPlanParser.filled_pushStr (chunk : Text) :
    ∀ seg ∈ (plan.pushStr chunk).2.extracted, seg.Filled := by
  intro seg mem
  obtain ⟨tagged, here, rfl⟩ := mem_map.mp mem
  exact filled_mapSegment tagged (plan.parser.filled_parse chunk tagged here)

theorem ProposedPlanParser.filled_finish : ∀ seg ∈ plan.finish.2.extracted, seg.Filled := by
  intro seg mem
  obtain ⟨tagged, here, rfl⟩ := mem_map.mp mem
  exact filled_mapSegment tagged (plan.parser.filled_finish tagged here)

theorem CitationStreamParser.pushStr_append (parser : CitationStreamParser)
    (oneTag : parser.inner.specs = [citationSpec]) (first second : Text) :
    parser.pushStr (first ++ second) = (((parser.pushStr first).1.pushStr second).1,
    (parser.pushStr first).2.append ((parser.pushStr first).1.pushStr second).2) := by
  have split := parser.inner.pushStr_append citationSpec oneTag first second
  simp [CitationStreamParser.pushStr, split, contents, StreamTextChunk.append]

namespace AssistantTextStreamParser

/-- Outputs that differ at most in how the plan segments are cut. -/
structure SameOutput (first second : AssistantTextChunk) : Prop where
  visibleText : first.visibleText = second.visibleText
  citations : first.citations = second.citations
  planSegments : first.planSegments.flatMap ProposedPlanSegment.characters =
    second.planSegments.flatMap ProposedPlanSegment.characters

theorem SameOutput.trans {first second third : AssistantTextChunk}
    (left : SameOutput first second) (right : SameOutput second third) : SameOutput first third :=
  ⟨left.visibleText.trans right.visibleText, left.citations.trans right.citations,
    left.planSegments.trans right.planSegments⟩

open AssistantTextChunk

theorem SameOutput.append_right {first second : AssistantTextChunk}
    (same : SameOutput first second) (rest : AssistantTextChunk) :
    SameOutput (first.append rest) (second.append rest) := by
  refine ⟨?_, ?_, ?_⟩
  · simp [append, same.visibleText]
  · simp only [append, same.citations]
  · simp only [append, flatMap_append, same.planSegments]

def ReadsCitations (parser : AssistantTextStreamParser) : Prop :=
  parser.citations.inner.specs = [citationSpec]

variable (parser : AssistantTextStreamParser)

theorem pushStr_append (reads : parser.ReadsCitations) (first second : Text) :
    (parser.pushStr (first ++ second)).1 = ((parser.pushStr first).1.pushStr second).1 ∧
    SameOutput (parser.pushStr (first ++ second)).2
    ((parser.pushStr first).2.append ((parser.pushStr first).1.pushStr second).2) := by
  have split := parser.citations.pushStr_append reads first second
  cases mode : parser.planMode with
  | false =>
    simp only [pushStr, parseVisibleText, mode, split, Bool.false_eq_true, if_false,
      StreamTextChunk.append, append, true_and]
    exact ⟨rfl, rfl, rfl⟩
  | true =>
    obtain ⟨samePlan, samePlanOutput⟩ := parser.plan.pushStr_append
      (parser.citations.pushStr first).2.visibleText
      ((parser.citations.pushStr first).1.pushStr second).2.visibleText
    simp only [pushStr, parseVisibleText, mode, split, if_true, StreamTextChunk.append,
      append, samePlan, true_and]
    exact ⟨samePlanOutput.visibleText, rfl, samePlanOutput.segments⟩

theorem append_assoc (first second third : AssistantTextChunk) :
    (first.append second).append third = first.append (second.append third) := by
  simp [append]

theorem streamFrom_cons (reads : parser.ReadsCitations) (chunk : Text) (rest : List Text) :
    SameOutput (parser.streamFrom [chunk ++ rest.flatten]) (parser.streamFrom (chunk :: rest)) := by
  induction rest generalizing chunk with
  | nil => rw [flatten_nil, List.append_nil]; exact ⟨rfl, rfl, rfl⟩
  | cons next rest ih =>
    have longer := ih (chunk ++ next)
    rw [List.append_assoc] at longer
    refine longer.trans ?_
    obtain ⟨sameParser, sameOutput⟩ := parser.pushStr_append reads chunk next
    simp only [streamFrom, sameParser]
    rw [← append_assoc]
    exact sameOutput.append_right _

theorem filled_parseVisibleText (visibleText : Text) :
    ∀ seg ∈ (parser.parseVisibleText visibleText).2.planSegments, seg.Filled := by
  unfold parseVisibleText
  split
  · exact parser.plan.filled_pushStr visibleText
  · exact fun _ none => by cases none

theorem filled_finish : ∀ seg ∈ parser.finish.2.planSegments, seg.Filled := by
  have seen := filled_parseVisibleText { parser with citations := parser.citations.finish.1 }
    parser.citations.finish.2.visibleText
  unfold finish
  dsimp only
  split
  · split
    · exact seen
    · intro seg mem
      rcases mem_append.mp mem with early | late
      · exact seen seg early
      · exact ProposedPlanParser.filled_finish _ seg late
  · exact seen

theorem filled_streamFrom (chunks : List Text) :
    ∀ seg ∈ (parser.streamFrom chunks).planSegments, seg.Filled := by
  induction chunks generalizing parser with
  | nil => exact parser.filled_finish
  | cons chunk rest ih =>
    intro seg mem
    rcases mem_append.mp mem with early | late
    · exact filled_parseVisibleText _ _ seg early
    · exact ih _ seg late

theorem SameOutput.mergePlanSegments {first second : AssistantTextChunk}
    (same : SameOutput first second) (filledFirst : ∀ seg ∈ first.planSegments, seg.Filled)
    (filledSecond : ∀ seg ∈ second.planSegments, seg.Filled) :
    StreamParser.mergePlanSegments first.planSegments =
    StreamParser.mergePlanSegments second.planSegments := by
  rw [mergePlanSegments_eq_characters _ filledFirst, mergePlanSegments_eq_characters _ filledSecond,
    same.planSegments]

variable (planMode : Bool)

theorem pushStr_new_nil : (new planMode).pushStr [] = (new planMode, ⟨[], [], []⟩) := by
  have quiet := InlineHiddenTagParser.pushLoop_absent [citationSpec] [] none rfl
  have citations : CitationStreamParser.new.pushStr [] = (CitationStreamParser.new, ⟨[], []⟩) := by
    simp only [CitationStreamParser.pushStr, CitationStreamParser.new,
      InlineHiddenTagParser.pushStr, List.append_nil, quiet]
    rfl
  unfold pushStr
  rw [show (new planMode).citations = CitationStreamParser.new from rfl, citations]
  cases planMode <;> rfl

theorem stream_flatten (chunks : List Text) :
    SameOutput (stream planMode [chunks.flatten]) (stream planMode chunks) := by
  cases chunks with
  | nil =>
    simp only [stream, streamFrom, flatten_nil, pushStr_new_nil]
    exact ⟨rfl, rfl, rfl⟩
  | cons chunk rest => exact (new planMode).streamFrom_cons rfl chunk rest

theorem finish_visibleText : parser.finish.2.visibleText = if parser.planMode then
        let (plan, out) := parser.plan.pushStr parser.citations.finish.2.visibleText
        out.visibleText ++ plan.finish.2.visibleText
      else parser.citations.finish.2.visibleText := by
  unfold finish parseVisibleText
  cases mode : parser.planMode with
  | false => rfl
  | true =>
    simp only [if_true]
    split
    next empty =>
      rw [StreamTextChunk.isEmpty, Bool.and_eq_true, List.isEmpty_iff] at empty
      rw [empty.1, List.append_nil]
    · rfl

theorem stream_singleton_visibleText (text : Text) : (stream planMode [text]).visibleText =
      if planMode then stripProposedPlanBlocks (stripCitations text).1
      else (stripCitations text).1 := by
  simp only [stream, streamFrom, append, finish_visibleText]
  cases planMode with
  | false => rfl
  | true =>
    obtain ⟨samePlan, sameOutput⟩ := ProposedPlanParser.new.pushStr_append
      (CitationStreamParser.new.pushStr text).2.visibleText
      (CitationStreamParser.new.pushStr text).1.finish.2.visibleText
    simp only [stripProposedPlanBlocks, stripCitations, if_true, samePlan,
      sameOutput.visibleText, StreamTextChunk.append, List.append_assoc]
    rfl

/-- Text, citations and merged plan segments of a stream do not depend on how it was cut, and the
visible text is what stripping the whole text leaves. -/
theorem stream_independent_of_chunks (planMode : Bool) (chunks : List Text) :
    let streamed := stream planMode chunks
    let whole := stream planMode [chunks.flatten]
    streamed.visibleText = whole.visibleText ∧ streamed.citations = whole.citations ∧
      mergePlanSegments streamed.planSegments = mergePlanSegments whole.planSegments ∧
      streamed.visibleText =
        if planMode then stripProposedPlanBlocks (stripCitations chunks.flatten).1
        else (stripCitations chunks.flatten).1 := by
  have same := stream_flatten planMode chunks
  refine ⟨same.visibleText.symm, same.citations.symm, ?_, ?_⟩
  · exact (same.mergePlanSegments (filled_streamFrom _ _) (filled_streamFrom _ _)).symm
  · rw [← same.visibleText]
    exact stream_singleton_visibleText planMode chunks.flatten

end AssistantTextStreamParser

end CodexFormal.StreamParser
