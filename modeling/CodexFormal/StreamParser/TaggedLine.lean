import CodexFormal.StreamParser.InlineHiddenTag

/-!
# Tagged lines and proposed plans

A tag stands alone on its line, so that a line is buffered until it can no
longer be a tag.  The segments of a chunk are compared through their single
characters: these come out the same wherever the input is cut.
-/

set_option autoImplicit false

namespace CodexFormal.StreamParser

open Patch List

structure TagSpec (Tag : Type) where
  openTag : Text
  closeTag : Text
  tag : Tag
deriving DecidableEq, Repr

inductive TaggedLineSegment (Tag : Type) where
  | normal (text : Text)
  | tagStart (tag : Tag)
  | tagDelta (tag : Tag) (text : Text)
  | tagEnd (tag : Tag)
deriving DecidableEq, Repr

variable {Tag : Type} [DecidableEq Tag]

/-- A segment continues the last one if both are text of the same kind. -/
def pushSegment (segments : List (TaggedLineSegment Tag)) (segment : TaggedLineSegment Tag) :
    List (TaggedLineSegment Tag) :=
  match segment with
  | .normal delta =>
    if delta = [] then segments
    else match segments.getLast? with
      | some (.normal existing) => segments.dropLast ++ [.normal (existing ++ delta)]
      | _ => segments ++ [.normal delta]
  | .tagDelta tag delta =>
    if delta = [] then segments
    else match segments.getLast? with
      | some (.tagDelta existingTag existing) =>
        if existingTag = tag then segments.dropLast ++ [.tagDelta tag (existing ++ delta)]
        else segments ++ [.tagDelta tag delta]
      | _ => segments ++ [.tagDelta tag delta]
  | .tagStart tag => segments ++ [.tagStart tag]
  | .tagEnd tag => segments ++ [.tagEnd tag]

structure TaggedLineParser (Tag : Type) where
  specs : List (TagSpec Tag)
  activeTag : Option Tag
  detectTag : Bool
  lineBuffer : Text
deriving DecidableEq, Repr

namespace TaggedLineParser

def new (specs : List (TagSpec Tag)) : TaggedLineParser Tag := ⟨specs, none, true, []⟩

variable (parser : TaggedLineParser Tag)

def textSegment (text : Text) : TaggedLineSegment Tag :=
  match parser.activeTag with
  | some tag => .tagDelta tag text
  | none => .normal text

def pushText (text : Text)
    (segments : List (TaggedLineSegment Tag)) : List (TaggedLineSegment Tag) :=
  pushSegment segments (parser.textSegment text)

def isTagPrefix (slug : Text) : Bool :=
  parser.specs.any fun spec =>
    (trimEnd slug).isPrefixOf spec.openTag || (trimEnd slug).isPrefixOf spec.closeTag

def matchOpen (slug : Text) : Option Tag :=
  (parser.specs.find? fun spec => spec.openTag = slug).map TagSpec.tag

def matchClose (slug : Text) : Option Tag :=
  (parser.specs.find? fun spec => spec.closeTag = slug).map TagSpec.tag

/-- The line without its newline and without the white space around it. -/
def lineSlug (line : Text) : Text :=
  trimEnd (trimStart (if line.getLast? = some '\n' then line.dropLast else line))

/-- A line is a tag that opens or closes a block here, or text. -/
def lineSegment (line : Text) : Option Tag × TaggedLineSegment Tag :=
  match parser.matchOpen (lineSlug line), parser.activeTag with
  | some tag, none => (some tag, .tagStart tag)
  | _, active =>
    match parser.matchClose (lineSlug line) with
    | some tag =>
      if active = some tag then (none, .tagEnd tag) else (active, parser.textSegment line)
    | none => (active, parser.textSegment line)

def finishLine (segments : List (TaggedLineSegment Tag)) :
    TaggedLineParser Tag × List (TaggedLineSegment Tag) :=
  let (active, segment) := parser.lineSegment parser.lineBuffer
  ({ parser with activeTag := active, detectTag := true, lineBuffer := [] },
    pushSegment segments segment)

structure ParseState (Tag : Type) where
  parser : TaggedLineParser Tag
  run : Text
  segments : List (TaggedLineSegment Tag)

def flushRun (state : ParseState Tag) : ParseState Tag :=
  if state.run = [] then state
  else { state with run := [], segments := state.parser.pushText state.run state.segments }

def parseChar (state : ParseState Tag) (ch : Char) : ParseState Tag :=
  if state.parser.detectTag then
    let state := flushRun state
    let parser : TaggedLineParser Tag :=
      { state.parser with lineBuffer := state.parser.lineBuffer ++ [ch] }
    if ch = '\n' then
      let (parser, segments) := parser.finishLine state.segments
      { state with parser := parser, segments := segments }
    else
      let slug := trimStart parser.lineBuffer
      if slug = [] ∨ parser.isTagPrefix slug then { state with parser := parser }
      else
        { state with
          parser := { parser with lineBuffer := [], detectTag := false }
          segments := parser.pushText parser.lineBuffer state.segments }
  else if ch = '\n' then
    { parser := { state.parser with detectTag := true }
      run := []
      segments := state.parser.pushText (state.run ++ [ch]) state.segments }
  else { state with run := state.run ++ [ch] }

def parse (delta : Text) : TaggedLineParser Tag × List (TaggedLineSegment Tag) :=
  let state := flushRun (delta.foldl parseChar ⟨parser, [], []⟩)
  (state.parser, state.segments)

def finish : TaggedLineParser Tag × List (TaggedLineSegment Tag) :=
  let (active, segments) :=
    if parser.lineBuffer = [] then (parser.activeTag, [])
    else
      let (active, segment) := parser.lineSegment parser.lineBuffer
      (active, pushSegment [] segment)
  ({ parser with activeTag := none, detectTag := true, lineBuffer := [] },
    match active with
    | some tag => pushSegment segments (.tagEnd tag)
    | none => segments)

end TaggedLineParser

inductive PlanTag where
  | proposedPlan
deriving DecidableEq, Repr

def planOpenTag : Text := "<proposed_plan>".toList

def planCloseTag : Text := "</proposed_plan>".toList

inductive ProposedPlanSegment where
  | normal (text : Text)
  | proposedPlanStart
  | proposedPlanDelta (text : Text)
  | proposedPlanEnd
deriving DecidableEq, Repr

structure ProposedPlanParser where
  parser : TaggedLineParser PlanTag
deriving DecidableEq, Repr

def mapSegment : TaggedLineSegment PlanTag → ProposedPlanSegment
  | .normal text => .normal text
  | .tagStart .proposedPlan => .proposedPlanStart
  | .tagDelta .proposedPlan text => .proposedPlanDelta text
  | .tagEnd .proposedPlan => .proposedPlanEnd

def ProposedPlanSegment.visibleText : ProposedPlanSegment → Text
  | normal text => text
  | _ => []

def mapSegments (segments : List (TaggedLineSegment PlanTag)) :
    StreamTextChunk ProposedPlanSegment :=
  ⟨(segments.map mapSegment).flatMap ProposedPlanSegment.visibleText, segments.map mapSegment⟩

namespace ProposedPlanParser

def new : ProposedPlanParser := ⟨.new [⟨planOpenTag, planCloseTag, .proposedPlan⟩]⟩

def pushStr (plan : ProposedPlanParser) (chunk : Text) :
    ProposedPlanParser × StreamTextChunk ProposedPlanSegment :=
  let (parser, segments) := plan.parser.parse chunk
  (⟨parser⟩, mapSegments segments)

def finish (plan : ProposedPlanParser) : ProposedPlanParser × StreamTextChunk ProposedPlanSegment :=
  let (parser, segments) := plan.parser.finish
  (⟨parser⟩, mapSegments segments)

end ProposedPlanParser

def stripProposedPlanBlocks (text : Text) : Text :=
  let (plan, out) := ProposedPlanParser.new.pushStr text
  out.visibleText ++ plan.finish.2.visibleText

namespace TaggedLineSegment

omit [DecidableEq Tag] in
/-- The segment cut into segments of one character. -/
def characters : TaggedLineSegment Tag → List (TaggedLineSegment Tag)
  | normal text => text.map fun c => normal [c]
  | tagDelta tag text => text.map fun c => tagDelta tag [c]
  | segment => [segment]

/-- Text segments are not empty. -/
def Filled : TaggedLineSegment Tag → Prop
  | normal text => text ≠ []
  | tagDelta _ text => text ≠ []
  | _ => True

end TaggedLineSegment

def charactersOf (segments : List (TaggedLineSegment Tag)) : List (TaggedLineSegment Tag) :=
  segments.flatMap TaggedLineSegment.characters

omit [DecidableEq Tag] in
theorem charactersOf_append (first second : List (TaggedLineSegment Tag)) :
    charactersOf (first ++ second) = charactersOf first ++ charactersOf second :=
  flatMap_append

variable (segs : List (TaggedLineSegment Tag))

omit [DecidableEq Tag] in
theorem charactersOf_of_getLast? (last : TaggedLineSegment Tag) (ends : segs.getLast? = some last) :
    charactersOf segs = charactersOf segs.dropLast ++ last.characters := by
  conv_lhs => rw [← dropLast_append_getLast? last ends]
  simp [charactersOf]

open TaggedLineSegment

theorem charactersOf_pushSegment (seg : TaggedLineSegment Tag) :
    charactersOf (pushSegment segs seg) = charactersOf segs ++ seg.characters := by
  cases seg with
  | normal delta =>
    unfold pushSegment
    by_cases empty : delta = []
    · simp [empty, characters]
    · simp only [if_neg empty]
      split
      next existing ends =>
        rw [charactersOf_of_getLast? segs _ ends, charactersOf_append]
        simp [charactersOf, characters]
      · simp [charactersOf]
  | tagDelta tag delta =>
    unfold pushSegment
    by_cases empty : delta = []
    · simp [empty, characters]
    · simp only [if_neg empty]
      split
      next existingTag existing ends =>
        split
        next same =>
          rw [charactersOf_of_getLast? segs _ ends, charactersOf_append, same]
          simp [charactersOf, characters]
        · simp [charactersOf]
      · simp [charactersOf]
  | _ => simp [pushSegment, charactersOf]

theorem filled_pushSegment (seg : TaggedLineSegment Tag) (full : ∀ other ∈ segs, other.Filled) :
    ∀ other ∈ pushSegment segs seg, other.Filled := by
  have filledDropLast : ∀ other ∈ segs.dropLast, other.Filled := fun other mem =>
    full other ((dropLast_sublist segs).subset mem)
  have added : ∀ (kept : List (TaggedLineSegment Tag)) (new : TaggedLineSegment Tag),
      (∀ other ∈ kept, other.Filled) → new.Filled → ∀ other ∈ kept ++ [new], other.Filled := by
    intro kept new filledKept filledNew other mem
    rcases mem_append.mp mem with old | last
    · exact filledKept other old
    · rwa [mem_singleton.mp last]
  cases seg with
  | normal delta =>
    unfold pushSegment
    by_cases empty : delta = []
    · simpa only [if_pos empty] using full
    · simp only [if_neg empty]
      split
      · exact added _ _ filledDropLast (append_ne_nil_of_right_ne_nil _ empty)
      · exact added _ _ full empty
  | tagDelta tag delta =>
    unfold pushSegment
    by_cases empty : delta = []
    · simpa only [if_pos empty] using full
    · simp only [if_neg empty]
      split
      · split
        · exact added _ _ filledDropLast (append_ne_nil_of_right_ne_nil _ empty)
        · exact added _ _ full empty
      · exact added _ _ full empty
  | _ => exact added _ _ full trivial

namespace TaggedLineParser

variable (parser : TaggedLineParser Tag)

omit [DecidableEq Tag] in
theorem characters_textSegment_append (first second : Text) :
    (parser.textSegment (first ++ second)).characters =
    (parser.textSegment first).characters ++ (parser.textSegment second).characters := by
  unfold textSegment
  cases parser.activeTag with
  | _ => simp [characters]

omit [DecidableEq Tag] in
theorem characters_textSegment_nil : (parser.textSegment []).characters = [] := by
  unfold textSegment
  cases parser.activeTag with
  | _ => rfl

/-- The segments and the run of text behind them. -/
def ParseState.characters (state : ParseState Tag) : List (TaggedLineSegment Tag) :=
  charactersOf state.segments ++ (state.parser.textSegment state.run).characters

/-- A run of text only grows while no tag is looked for. -/
def ParseState.Ready (state : ParseState Tag) : Prop :=
  state.parser.detectTag = true → state.run = []

variable (state : ParseState Tag)

theorem characters_flushRun : (flushRun state).characters = state.characters := by
  unfold flushRun
  split
  · rfl
  · simp [ParseState.characters, pushText, charactersOf_pushSegment, characters_textSegment_nil]

theorem parser_flushRun : (flushRun state).parser = state.parser := by
  unfold flushRun
  split <;> rfl

theorem segments_flushRun : charactersOf (flushRun state).segments = state.characters := by
  rw [← characters_flushRun]
  unfold flushRun
  split
  next empty =>
    simp [ParseState.characters, empty, characters_textSegment_nil]
  · simp [ParseState.characters, characters_textSegment_nil]

theorem ready_parseChar (ch : Char) (ready : state.Ready) : (parseChar state ch).Ready := by
  intro detect
  unfold parseChar at detect ⊢
  cases looking : state.parser.detectTag with
  | true =>
    have empty := ready looking
    simp only [looking, if_true, flushRun, empty] at detect ⊢
    split
    · rfl
    · split <;> rfl
  | false =>
    simp only [looking, Bool.false_eq_true, if_false] at detect ⊢
    split
    · rfl
    next inLine =>
      simp only [if_neg inLine, looking] at detect
      cases detect

theorem parseChar_spec (ch : Char) (ready : state.Ready) :
    let fresh := parseChar ⟨state.parser, [], []⟩ ch
    (parseChar state ch).parser = fresh.parser ∧
      (parseChar state ch).characters = state.characters ++ fresh.characters := by
  unfold parseChar
  cases looking : state.parser.detectTag with
  | true =>
    have empty := ready looking
    simp only [looking, if_true, flushRun, empty]
    by_cases newline : ch = '\n'
    · simp only [if_pos newline, finishLine, ParseState.characters, empty,
        charactersOf_pushSegment, characters_textSegment_nil, append_nil, true_and]
      rfl
    · simp only [if_neg newline]
      split
      · simp only [ParseState.characters, empty, characters_textSegment_nil, append_nil, true_and]
        simp [charactersOf]
      · simp only [ParseState.characters, empty, pushText, charactersOf_pushSegment,
          characters_textSegment_nil, append_nil, true_and]
        simp [charactersOf]
  | false =>
    simp only [Bool.false_eq_true, if_false]
    by_cases newline : ch = '\n'
    · simp only [if_pos newline, ParseState.characters, pushText, charactersOf_pushSegment,
        characters_textSegment_nil, characters_textSegment_append, append_nil,
        append_assoc, true_and]
      simp [charactersOf]
    · simp only [if_neg newline, ParseState.characters, characters_textSegment_append,
        characters_textSegment_nil, append_assoc, true_and]
      simp [charactersOf]

theorem foldl_parseChar_spec (delta : Text) (state : ParseState Tag) (ready : state.Ready) :
    let fresh := delta.foldl parseChar ⟨state.parser, [], []⟩
    (delta.foldl parseChar state).parser = fresh.parser ∧
      (delta.foldl parseChar state).characters = state.characters ++ fresh.characters := by
  induction delta generalizing state with
  | nil => simp [ParseState.characters, charactersOf, characters_textSegment_nil]
  | cons ch rest ih =>
    have freshReady : (⟨state.parser, [], []⟩ : ParseState Tag).Ready := fun _ => rfl
    obtain ⟨sameParser, added⟩ := parseChar_spec state ch ready
    obtain ⟨parserRest, charactersRest⟩ := ih _ (ready_parseChar state ch ready)
    obtain ⟨parserFresh, charactersFresh⟩ := ih _ (ready_parseChar _ ch freshReady)
    simp only [foldl_cons]
    rw [sameParser] at parserRest charactersRest
    refine ⟨parserRest.trans parserFresh.symm, ?_⟩
    rw [charactersRest, charactersFresh, added, append_assoc]

theorem parse_append (first second : Text) :
    (parser.parse (first ++ second)).1 = ((parser.parse first).1.parse second).1 ∧
    charactersOf (parser.parse (first ++ second)).2 = charactersOf (parser.parse first).2 ++
    charactersOf ((parser.parse first).1.parse second).2 := by
  have ready : ∀ (delta : Text) (state : ParseState Tag), state.Ready →
      (delta.foldl parseChar state).Ready := by
    intro delta
    induction delta with
    | nil => exact fun _ ready => ready
    | cons ch rest ih => exact fun state ready => ih _ (ready_parseChar state ch ready)
  obtain ⟨sameParser, added⟩ := foldl_parseChar_spec second
    (first.foldl parseChar ⟨parser, [], []⟩) (ready first _ fun _ => rfl)
  simp only [parse, foldl_append, parser_flushRun, segments_flushRun]
  exact ⟨sameParser, added⟩

theorem filled_flushRun (full : ∀ seg ∈ state.segments, seg.Filled) :
    ∀ seg ∈ (flushRun state).segments, seg.Filled := by
  unfold flushRun
  split
  · exact full
  · exact filled_pushSegment _ _ full

theorem filled_parseChar (ch : Char) (full : ∀ seg ∈ state.segments, seg.Filled) :
    ∀ seg ∈ (parseChar state ch).segments, seg.Filled := by
  have flushed := filled_flushRun state full
  unfold parseChar
  dsimp only
  split
  · split
    · exact filled_pushSegment _ _ flushed
    · split
      · exact flushed
      · exact filled_pushSegment _ _ flushed
  · split
    · exact filled_pushSegment _ _ full
    · exact full

theorem filled_parse (delta : Text) : ∀ seg ∈ (parser.parse delta).2, seg.Filled := by
  have run : ∀ (delta : Text) (state : ParseState Tag), (∀ seg ∈ state.segments, seg.Filled) →
        ∀ seg ∈ (delta.foldl parseChar state).segments, seg.Filled := by
    intro delta
    induction delta with
    | nil => exact fun _ full => full
    | cons ch rest ih => exact fun state full => ih _ (filled_parseChar state ch full)
  exact filled_flushRun _ (run delta _ fun _ none => by cases none)

theorem filled_finish : ∀ seg ∈ parser.finish.2, seg.Filled := by
  have line : ∀ seg ∈ (if parser.lineBuffer = [] then (parser.activeTag, [])
      else
        let (active, seg) := parser.lineSegment parser.lineBuffer
        (active, pushSegment [] seg)).2, seg.Filled := by
    split
    · exact fun _ none => by cases none
    · exact filled_pushSegment [] _ fun _ none => by cases none
  unfold finish
  dsimp only
  split
  · exact filled_pushSegment _ _ line
  · exact line

end TaggedLineParser

end CodexFormal.StreamParser
