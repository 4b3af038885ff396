import CodexFormal.Strings.FunctionOutput

/-!
# Bounding the records of attempted tool calls

Items of a request carry records of the tool calls attempted for them.  Oversized
arguments are replaced by a truncation record, optional result data are dropped
stage by stage, and what is still too large shares one budget.  A claim that the
calls are complete is revoked for every item of a cell that lost evidence.
-/

set_option autoImplicit false

namespace CodexFormal.Protocol

open Foundation Foundation.Json List
open Patch (Text)
open Strings (usizeMax)

def maxExecutedToolCallArgumentBytes : Nat := 8 * 1024

def maxExecutedToolCallMetadataBytes : Nat := 32 * 1024

def saturatingAdd (left right : Nat) : Nat := min (left + right) usizeMax

structure ExecutedToolCallTruncation where
  originalBytes : Nat
  maxBytes : Nat
  omittedCalls : Option Nat
  originalNameBytes : Option Nat
deriving DecidableEq

/-- A JSON value is held as its compact text. -/
inductive ExecutedToolCallArguments where
  | raw (value : Text)
  | truncated (truncation : ExecutedToolCallTruncation)
deriving DecidableEq

structure ToolResultSource where
  type : Text
  id : Text
deriving DecidableEq

structure ExecutedToolCall where
  name : Text
  arguments : ExecutedToolCallArguments
  toolResultSources : Option (List ToolResultSource)
  toolResultMetadata : Option Text
deriving DecidableEq

structure InternalChatMessageMetadataPassthrough where
  turnId : Option Text := none
  createTime : Option Text := none
  contentItemKinds : Option (List Text) := none
  cellId : Option Text := none
  executedToolCalls : Option (List ExecutedToolCall) := none
  toolCallsComplete : Option Bool := none
deriving DecidableEq

/-- A variant that cannot carry metadata is an item without metadata. -/
structure ResponseItem (Content : Type) where
  content : Content
  metadata : Option InternalChatMessageMetadataPassthrough

variable {Content : Type} (call : ExecutedToolCall)
  (metadata : InternalChatMessageMetadataPassthrough)

/-! ## Serialized sizes -/

def member (key : String) (value : Option Text) : List (Text × Text) :=
  value.toList.map fun text => (key.toList, text)

def ExecutedToolCallTruncation.json (truncation : ExecutedToolCallTruncation) : Text :=
  object (member "original_bytes" (nat truncation.originalBytes) ++
    member "max_bytes" (nat truncation.maxBytes) ++
    member "omitted_calls" (truncation.omittedCalls.map nat) ++
    member "original_name_bytes" (truncation.originalNameBytes.map nat))

def ExecutedToolCallArguments.json : ExecutedToolCallArguments → Text
  | .raw value => value
  | .truncated truncation => object (member "_codex_executed_tool_call_truncated" truncation.json)

def ToolResultSource.json (source : ToolResultSource) : Text :=
  object (member "type" (string source.type) ++ member "id" (string source.id))

def ExecutedToolCall.json : Text :=
  object (member "name" (string call.name) ++ member "arguments" call.arguments.json ++
    member "tool_result_sources"
      (call.toolResultSources.map fun sources => array (sources.map ToolResultSource.json)) ++
    member "tool_result_metadata" call.toolResultMetadata)

def serializedBytes (calls : List ExecutedToolCall) : Nat :=
  utf8Length (array (calls.map ExecutedToolCall.json))

def executedToolCallMetadataFieldBytes : Nat :=
  let fields := utf8Length (object (member "cell_id" (metadata.cellId.map string) ++
    member "tool_calls_complete" (metadata.toolCallsComplete.map bool))) - 2
  let bytes := if metadata.executedToolCalls.isSome then
      fields + (if 0 < fields then 1 else 0) + "\"executed_tool_calls\":".length
    else fields
  if bytes = 0 then 0
  else if metadata.turnId.isSome || metadata.createTime.isSome ||
      metadata.contentItemKinds.isSome then bytes + 1
  else bytes + "\"internal_chat_message_metadata_passthrough\":".length + 3

def bytesOf : Nat :=
  metadata.executedToolCalls.elim 0 serializedBytes + executedToolCallMetadataFieldBytes metadata

def executedToolCallMetadataBytes (item : ResponseItem Content) : Nat :=
  item.metadata.elim 0 bytesOf

def metadataBytes (items : List (ResponseItem Content)) : Nat :=
  (items.map executedToolCallMetadataBytes).sum

/-! ## Operations on one item -/

namespace ExecutedToolCall

def truncation : Option ExecutedToolCallTruncation :=
  match call.arguments with
  | .raw _ => none
  | .truncated truncation => some truncation

def omittedCalls : Nat := (call.truncation.bind (·.omittedCalls)).getD 0

def setTruncationWithName (originalBytes maxBytes : Nat)
    (omittedCalls originalNameBytes : Option Nat) : ExecutedToolCall :=
  { call with arguments := .truncated ⟨originalBytes, maxBytes, omittedCalls, originalNameBytes⟩ }

def truncateOversized : ExecutedToolCall :=
  let argumentBytes := utf8Length call.arguments.json
  if call.truncation.isNone ∧ maxExecutedToolCallArgumentBytes < argumentBytes then
    call.setTruncationWithName argumentBytes maxExecutedToolCallArgumentBytes none none
  else call

def omitToolResultMetadata : ExecutedToolCall :=
  { call with toolResultMetadata :=
      call.toolResultMetadata.map fun _ => string "omitted_due_to_size_limit".toList }

def clearToolResultMetadata : ExecutedToolCall := { call with toolResultMetadata := none }

def clearToolResultSources : ExecutedToolCall := { call with toolResultSources := none }

/-- The first call of an item that is over its budget stands for all of them. -/
def omissionMarker (maxCallBytes representedCalls : Nat) : ExecutedToolCall :=
  let originalBytes := call.truncation.elim (utf8Length call.arguments.json) (·.originalBytes)
  let originalNameBytes := call.truncation.bind (·.originalNameBytes)
  let omittedCalls := if 1 < representedCalls then some (representedCalls - 1) else none
  let maxBytes := min maxCallBytes maxExecutedToolCallArgumentBytes
  let marker := call.setTruncationWithName originalBytes maxBytes omittedCalls originalNameBytes
  if maxCallBytes < serializedBytes [marker] then
    let marker := call.setTruncationWithName originalBytes maxBytes omittedCalls
      (some (originalNameBytes.getD (utf8Length call.name)))
    let excessBytes := serializedBytes [marker] - maxCallBytes
    { marker with name := takeWithin (utf8Length call.name - excessBytes) call.name }
  else marker

end ExecutedToolCall

def representedCalls (calls : List ExecutedToolCall) : Nat :=
  calls.foldl (fun count call => saturatingAdd (saturatingAdd count 1) call.omittedCalls) 0

namespace InternalChatMessageMetadataPassthrough

def calls : List ExecutedToolCall := metadata.executedToolCalls.getD []

def mapCalls (change : ExecutedToolCall → ExecutedToolCall) :=
  { metadata with executedToolCalls := metadata.executedToolCalls.map (map change) }

def hasTruncation : Bool := metadata.calls.any (·.truncation.isSome)

def clearToolCallsComplete := { metadata with toolCallsComplete := none }

def boundArguments :=
  let bounded := metadata.mapCalls (·.truncateOversized)
  if bounded.hasTruncation then bounded.clearToolCallsComplete else bounded

def withoutToolCalls :=
  { metadata with cellId := none, executedToolCalls := none, toolCallsComplete := none }

def clearExecutedToolCalls :=
  if metadata.withoutToolCalls = {} then none else some metadata.withoutToolCalls

def boundExecutedToolCallsWithBudget (maxMetadataBytes : Nat) :=
  let maxCallBytes := maxMetadataBytes - executedToolCallMetadataFieldBytes metadata
  match metadata.executedToolCalls with
  | some (call :: rest) =>
    let marker := call.omissionMarker maxCallBytes (representedCalls (call :: rest))
    if maxCallBytes < serializedBytes [marker] then metadata.clearExecutedToolCalls
    else some { metadata with executedToolCalls := some [marker] }
  | _ => metadata.clearExecutedToolCalls

end InternalChatMessageMetadataPassthrough

open InternalChatMessageMetadataPassthrough ExecutedToolCall

namespace ResponseItem

variable (item : ResponseItem Content)

def mapMetadata
    (change : InternalChatMessageMetadataPassthrough → InternalChatMessageMetadataPassthrough) :
    ResponseItem Content :=
  { item with metadata := item.metadata.map change }

def cellId : Option Text := item.metadata.bind (·.cellId)

def boundToBudget (budget : Nat) : ResponseItem Content :=
  { item with metadata := item.metadata.bind fun metadata =>
      metadata.clearToolCallsComplete.boundExecutedToolCallsWithBudget budget }

end ResponseItem

/-! ## Operations on a request -/

def clearDamagedCellCompleteness (damagedCells : List Text) :
    List (ResponseItem Content) → List (ResponseItem Content) :=
  map fun item =>
    if item.cellId.any (damagedCells.contains ·) then item.mapMetadata clearToolCallsComplete
    else item

/-- The source returns as soon as the metadata fit; the later stages then change nothing. -/
def dropIfTooLarge (drop : ExecutedToolCall → ExecutedToolCall)
    (items : List (ResponseItem Content)) : List (ResponseItem Content) :=
  if metadataBytes items ≤ maxExecutedToolCallMetadataBytes then items
  else items.map (·.mapMetadata (·.mapCalls drop))

/-- The items within the budget and the cells of those that lost evidence.  A division by zero
and a negative count have no result. -/
def shareBudget (prioritizeRecent : Bool) : Nat → Nat → List (ResponseItem Content) →
    Option (List (ResponseItem Content) × List Text)
  | _, _, [] => some ([], [])
  | remainingItems, remainingBytes, item :: rest =>
    let itemBytes := executedToolCallMetadataBytes item
    if itemBytes = 0 then
      (shareBudget prioritizeRecent remainingItems remainingBytes rest).map fun shared =>
        (item :: shared.1, shared.2)
    else if remainingItems = 0 then none
    else
      let itemBudget := if prioritizeRecent then remainingBytes
        else remainingBytes / remainingItems
      let (bounded, damaged) := if itemBudget < itemBytes then
          (item.boundToBudget itemBudget, item.cellId.toList)
        else (item, [])
      (shareBudget prioritizeRecent (remainingItems - 1)
        (remainingBytes - executedToolCallMetadataBytes bounded) rest).map fun shared =>
          (bounded :: shared.1, damaged ++ shared.2)

section

variable (items : List (ResponseItem Content))

def boundExecutedToolCallsForPromptWithPriority (prioritizeRecent : Bool) :
    Option (List (ResponseItem Content)) :=
  let items := items.map (·.mapMetadata boundArguments)
  let damagedCells := items.filterMap fun item =>
    item.metadata.bind fun metadata => if metadata.hasTruncation then metadata.cellId else none
  let items := clearDamagedCellCompleteness damagedCells items
  let items := dropIfTooLarge omitToolResultMetadata items
  let items := dropIfTooLarge clearToolResultMetadata items
  let items := dropIfTooLarge clearToolResultSources items
  if metadataBytes items ≤ maxExecutedToolCallMetadataBytes then some items
  else
    (shareBudget prioritizeRecent
      (items.countP fun item => 0 < executedToolCallMetadataBytes item)
      maxExecutedToolCallMetadataBytes items).map fun shared =>
        clearDamagedCellCompleteness (damagedCells ++ shared.2) shared.1

def boundExecutedToolCallsForPrompt : Option (List (ResponseItem Content)) :=
  boundExecutedToolCallsForPromptWithPriority items false

def boundExecutedToolCallsForPromptPrioritizingRecent : Option (List (ResponseItem Content)) :=
  (boundExecutedToolCallsForPromptWithPriority items.reverse true).map reverse

end

/-! ## What bounding keeps -/

def ResponseItem.fields (item : ResponseItem Content) : InternalChatMessageMetadataPassthrough :=
  item.metadata.getD {}

namespace InternalChatMessageMetadataPassthrough

def otherFields : Option Text × Option Text × Option (List Text) :=
  (metadata.turnId, metadata.createTime, metadata.contentItemKinds)

/-- The names and arguments of the calls. -/
def recordedCalls : List (Text × ExecutedToolCallArguments) :=
  metadata.calls.map fun call => (call.name, call.arguments)

/-- The number of calls with those that were omitted. -/
def standsFor : Nat := (metadata.calls.map fun call => 1 + call.omittedCalls).sum

def IsRemoved : Prop :=
  metadata.cellId = none ∧ metadata.executedToolCalls = none ∧ metadata.toolCallsComplete = none

end InternalChatMessageMetadataPassthrough

/-- What the metadata of an item may become while the cells that lost evidence are remembered. -/
structure Kept (damaged : List Text) (before after : InternalChatMessageMetadataPassthrough) :
    Prop where
  otherFields : after.otherFields = before.otherFields
  counted : after.standsFor = before.standsFor ∨
    after.standsFor = min before.standsFor usizeMax ∨ after.IsRemoved
  intact : after.cellId = before.cellId ∧ after.recordedCalls = before.recordedCalls ∨
    after.toolCallsComplete = none ∧ ∀ cell ∈ before.cellId, cell ∈ damaged
  bounded : ∀ call ∈ after.calls, call.truncateOversized = call
  marked : after.hasTruncation = true →
    after.toolCallsComplete = none ∧ ∀ cell ∈ after.cellId, cell ∈ damaged

section

variable {call metadata} {pre after : InternalChatMessageMetadataPassthrough}
  {damaged : List Text}

@[simp]
theorem calls_mapCalls (change : ExecutedToolCall → ExecutedToolCall) :
    (metadata.mapCalls change).calls = metadata.calls.map change := by
  unfold InternalChatMessageMetadataPassthrough.calls mapCalls
  cases metadata.executedToolCalls <;> rfl

theorem truncateOversized_eq_self_iff : call.truncateOversized = call ↔ (call.truncation = none →
    utf8Length call.arguments.json ≤ maxExecutedToolCallArgumentBytes) := by
  grind [cases ExecutedToolCall, truncateOversized, setTruncationWithName, truncation]

theorem truncateOversized_idem :
    call.truncateOversized.truncateOversized = call.truncateOversized := by
  grind [truncateOversized, setTruncationWithName, truncation]

theorem omittedCalls_truncateOversized :
    call.truncateOversized.omittedCalls = call.omittedCalls := by
  grind [truncateOversized, setTruncationWithName, truncation, ExecutedToolCall.omittedCalls]

theorem truncateOversized_of_raw (isRaw : call.truncateOversized.truncation = none) :
    call.truncateOversized = call := by
  grind [truncateOversized, setTruncationWithName, truncation]

theorem calls_boundArguments :
    metadata.boundArguments.calls = metadata.calls.map truncateOversized := by
  rw [← calls_mapCalls]
  unfold boundArguments
  dsimp only
  split <;> rfl

theorem boundArguments_fields : metadata.boundArguments.otherFields = metadata.otherFields ∧
    metadata.boundArguments.cellId = metadata.cellId ∧
    (metadata.boundArguments.hasTruncation = true →
      metadata.boundArguments.toolCallsComplete = none) := by
  unfold boundArguments
  dsimp only
  split
  · exact ⟨rfl, rfl, fun _ => rfl⟩
  next untruncated =>
    exact ⟨rfl, rfl, fun cuts => absurd cuts untruncated⟩

theorem kept_boundArguments (remembered : metadata.boundArguments.hasTruncation = true →
    ∀ cell ∈ metadata.cellId, cell ∈ damaged) : Kept damaged metadata metadata.boundArguments := by
  obtain ⟨otherFields, cellId, complete⟩ := @boundArguments_fields metadata
  refine ⟨otherFields, .inl ?_, ?_, ?_, fun cuts => ⟨complete cuts, ?_⟩⟩
  · simp [standsFor, calls_boundArguments, omittedCalls_truncateOversized, Function.comp_def]
  · cases cuts : metadata.boundArguments.hasTruncation with
    | true => exact .inr ⟨complete cuts, remembered cuts⟩
    | false =>
      refine .inl ⟨cellId, ?_⟩
      unfold recordedCalls
      rw [hasTruncation, calls_boundArguments, any_map, any_eq_false] at cuts
      rw [calls_boundArguments, map_map]
      refine map_congr_left fun call mem => ?_
      have isRaw := cuts call mem
      rw [Function.comp_apply, truncateOversized_of_raw (by simpa using isRaw)]
  · rw [calls_boundArguments]
    intro call mem
    obtain ⟨orig, _, rfl⟩ := mem_map.mp mem
    exact truncateOversized_idem
  · rw [cellId]
    exact remembered cuts

/-- Metadata that were bounded once are not changed by the first stage. -/
theorem Kept.boundArguments_eq (kept : Kept damaged pre after) : after.boundArguments = after := by
  have same : after.mapCalls truncateOversized = after := by
    obtain ⟨_, _, _, _, none | calls, _⟩ := after
    · rfl
    · have fixed : calls.map truncateOversized = calls :=
        (map_congr_left kept.bounded).trans (map_id calls)
      simp only [mapCalls, Option.map_some, fixed]
  unfold boundArguments
  rw [same]
  dsimp only
  split
  next cuts =>
    rw [clearToolCallsComplete, ← (kept.marked cuts).1]
  · rfl

theorem Kept.mono {more : List Text} (kept : Kept damaged pre after)
    (subset : damaged ⊆ more) : Kept more pre after := by
  obtain ⟨otherFields, counted, intact, bounded, marked⟩ := kept
  constructor <;> grind

theorem Kept.clearToolCallsComplete (kept : Kept damaged pre after) :
    Kept damaged pre after.clearToolCallsComplete := by
  refine ⟨kept.otherFields, ?_, ?_, kept.bounded, fun cuts =>
    ⟨rfl, (kept.marked cuts).2⟩⟩
  · exact kept.counted.imp_right fun counted => counted.imp_right fun gone =>
      ⟨gone.1, gone.2.1, rfl⟩
  · exact kept.intact.imp_right fun harmed => ⟨rfl, harmed.2⟩

def KeepsCalls (drop : ExecutedToolCall → ExecutedToolCall) : Prop :=
  ∀ call, (drop call).name = call.name ∧ (drop call).arguments = call.arguments

theorem Kept.mapCalls {drop : ExecutedToolCall → ExecutedToolCall} (keeps : KeepsCalls drop)
    (kept : Kept damaged pre after) : Kept damaged pre (after.mapCalls drop) := by
  have truncation : ∀ call, (drop call).truncation = call.truncation := fun call => by
    rw [ExecutedToolCall.truncation, (keeps call).2]
    rfl
  have counted : (after.mapCalls drop).standsFor = after.standsFor := by
    simp [standsFor, ExecutedToolCall.omittedCalls, truncation, Function.comp_def]
  have noted : (after.mapCalls drop).recordedCalls = after.recordedCalls := by
    simp [recordedCalls, keeps _, Function.comp_def]
  have marked : (after.mapCalls drop).hasTruncation = after.hasTruncation := by
    simp [hasTruncation, truncation, Function.comp_def]
  refine ⟨kept.otherFields, ?_, noted ▸ kept.intact, fun call mem => ?_, marked ▸ kept.marked⟩
  · rw [counted]
    refine kept.counted.imp_right fun counted => counted.imp_right fun gone => ?_
    exact ⟨gone.1, congrArg (·.map (map drop)) gone.2.1, gone.2.2⟩
  · rw [calls_mapCalls] at mem
    obtain ⟨orig, isOriginal, rfl⟩ := mem_map.mp mem
    have bounded := kept.bounded orig isOriginal
    rw [truncateOversized_eq_self_iff] at bounded ⊢
    rwa [truncation, (keeps orig).2]

/-! ## One item over its budget -/

theorem representedCalls_eq (calls : List ExecutedToolCall) : representedCalls calls =
    min (calls.map fun call => 1 + call.omittedCalls).sum usizeMax := by
  suffices counts : ∀ count ≤ usizeMax, calls.foldl (fun count call =>
      saturatingAdd (saturatingAdd count 1) call.omittedCalls) count =
        min (count + (calls.map fun call => 1 + call.omittedCalls).sum) usizeMax by
    rw [representedCalls, counts 0 (Nat.zero_le _), Nat.zero_add]
  induction calls with
  | nil => simp
  | cons call rest ih =>
    intro count _
    rw [foldl_cons, ih (saturatingAdd _ _) (Nat.min_le_right _ _), map_cons, sum_cons]
    unfold saturatingAdd
    omega

theorem omissionMarker_truncation (maxCallBytes represented : Nat) :
    ∃ truncation, (call.omissionMarker maxCallBytes represented).truncation = some truncation ∧
      truncation.omittedCalls = if 1 < represented then some (represented - 1) else none := by
  unfold omissionMarker
  generalize (if 1 < represented then some (represented - 1) else none) = omitted
  dsimp only
  split <;> exact ⟨_, rfl, rfl⟩

theorem clearExecutedToolCalls_getD :
    metadata.clearExecutedToolCalls.getD {} = metadata.withoutToolCalls := by
  unfold clearExecutedToolCalls
  split
  next empty =>
    exact empty.symm
  · rfl

theorem boundExecutedToolCallsWithBudget_cases (budget : Nat) :
    (metadata.boundExecutedToolCallsWithBudget budget).getD {} = metadata.withoutToolCalls ∨
    ∃ call, call.truncation.isSome = true ∧ metadata.executedToolCalls.isSome = true ∧
      1 + call.omittedCalls = min metadata.standsFor usizeMax ∧
      serializedBytes [call] ≤ budget - executedToolCallMetadataFieldBytes metadata ∧
      metadata.boundExecutedToolCallsWithBudget budget =
        some { metadata with executedToolCalls := some [call] } := by
  unfold boundExecutedToolCallsWithBudget
  dsimp only
  split
  next first rest given =>
    split
    · exact .inl clearExecutedToolCalls_getD
    next fits =>
      obtain ⟨truncation, isTruncation, omitted⟩ := @omissionMarker_truncation first
        (budget - executedToolCallMetadataFieldBytes metadata) (representedCalls (first :: rest))
      refine .inr ⟨_, by rw [isTruncation]; rfl, by rw [given]; rfl, ?_,
        Nat.le_of_not_lt fits, rfl⟩
      have represented : representedCalls (first :: rest) = min metadata.standsFor usizeMax := by
        rw [representedCalls_eq, standsFor, InternalChatMessageMetadataPassthrough.calls, given]
        rfl
      have pos : 1 ≤ representedCalls (first :: rest) := by
        rw [representedCalls_eq, map_cons, sum_cons, usizeMax]
        omega
      rw [ExecutedToolCall.omittedCalls, isTruncation, Option.bind_some, omitted, ← represented]
      split
      · rw [Option.getD_some]
        omega
      · rw [Option.getD_none]
        omega
  · exact .inl clearExecutedToolCalls_getD

theorem Kept.boundToBudget (kept : Kept damaged pre after) (budget : Nat)
    (remembered : ∀ cell ∈ after.cellId, cell ∈ damaged) : Kept damaged pre
      ((after.clearToolCallsComplete.boundExecutedToolCallsWithBudget budget).getD {}) := by
  have cells : ∀ cell ∈ pre.cellId, cell ∈ damaged := by
    rcases kept.intact with ⟨same, _⟩ | ⟨_, cells⟩
    · rwa [← same]
    · exact cells
  rcases boundExecutedToolCallsWithBudget_cases budget with
    cleared | ⟨call, truncated, given, counted, _, bounded⟩
  · rw [cleared]
    exact ⟨kept.otherFields, .inr (.inr ⟨rfl, rfl, rfl⟩), .inr ⟨rfl, cells⟩,
      fun call mem => absurd mem not_mem_nil, fun cuts => by cases cuts⟩
  · rw [bounded]
    refine ⟨kept.otherFields, .inr ?_, .inr ⟨rfl, cells⟩, fun other mem => ?_,
      fun _ => ⟨rfl, remembered⟩⟩
    · have marked : standsFor { after.clearToolCallsComplete with
          executedToolCalls := some [call] } = min after.standsFor usizeMax := counted
      rw [Option.getD_some, marked]
      rcases kept.counted with same | saturated | gone
      · rw [same]
        exact .inl rfl
      · rw [saturated, Nat.min_assoc, Nat.min_self]
        exact .inl rfl
      · cases given.symm.trans (congrArg Option.isSome gone.2.1)
    · rw [mem_singleton.mp mem, truncateOversized_eq_self_iff]
      intro isRaw
      rw [isRaw] at truncated
      cases truncated

/-! ## Sizes -/

theorem bytesOf_clearToolCallsComplete_le :
    bytesOf metadata.clearToolCallsComplete ≤ bytesOf metadata := by
  have fewer : utf8Length (object (member "cell_id" (metadata.cellId.map string) ++
      member "tool_calls_complete" none)) ≤ utf8Length (object (member "cell_id"
        (metadata.cellId.map string) ++ member "tool_calls_complete"
          (metadata.toolCallsComplete.map bool))) := by
    rw [utf8Length_object, utf8Length_object, map_append, map_append, sum_append, sum_append]
    change _ + 0 - 1 + 2 ≤ _
    omega
  unfold bytesOf executedToolCallMetadataFieldBytes clearToolCallsComplete
  refine Nat.add_le_add_left ?_ _
  dsimp only [Option.map_none]
  split_ifs <;> omega

theorem bytesOf_bounded_le (budget : Nat) :
    bytesOf ((metadata.boundExecutedToolCallsWithBudget budget).getD {}) ≤ budget := by
  rcases boundExecutedToolCallsWithBudget_cases budget with
    cleared | ⟨call, _, given, _, fits, bounded⟩
  · rw [cleared]
    exact Nat.zero_le budget
  · have sameFields : executedToolCallMetadataFieldBytes { metadata with
        executedToolCalls := some [call] } = executedToolCallMetadataFieldBytes metadata := by
      unfold executedToolCallMetadataFieldBytes
      rw [given]
      rfl
    have brackets : 2 ≤ serializedBytes [call] := by
      rw [serializedBytes, utf8Length_array]
      omega
    rw [bounded, Option.getD_some, bytesOf, sameFields, Option.elim_some]
    omega

end

/-! ## Whole requests -/

section

variable {item before after : ResponseItem Content} {damaged : List Text}
  {originals items result : List (ResponseItem Content)}

theorem fields_mapMetadata
    {change : InternalChatMessageMetadataPassthrough → InternalChatMessageMetadataPassthrough}
    (empty : change {} = {}) : (item.mapMetadata change).fields = change item.fields := by
  obtain ⟨text, none | metadata⟩ := item
  · exact empty.symm
  · rfl

theorem fields_boundToBudget (budget : Nat) : (item.boundToBudget budget).fields =
    (item.fields.clearToolCallsComplete.boundExecutedToolCallsWithBudget budget).getD {} := by
  obtain ⟨text, none | metadata⟩ := item <;> rfl

theorem cellId_eq_fields : item.cellId = item.fields.cellId := by
  obtain ⟨text, none | metadata⟩ := item <;> rfl

theorem executedToolCallMetadataBytes_eq :
    executedToolCallMetadataBytes item = bytesOf item.fields := by
  obtain ⟨text, none | metadata⟩ := item <;> rfl

def Retained (damaged : List Text) (before after : ResponseItem Content) : Prop :=
  after.content = before.content ∧ Kept damaged before.fields after.fields

/-- Items of the damaged cells no longer claim that their calls are complete. -/
def Settled (damaged : List Text) (before after : ResponseItem Content) : Prop :=
  Retained damaged before after ∧ ∀ cell ∈ after.fields.cellId, cell ∈ damaged →
    after.fields.toolCallsComplete = none

theorem settled_clearDamaged (retained : Forall₂ (Retained damaged) originals items) :
    Forall₂ (Settled damaged) originals (clearDamagedCellCompleteness damaged items) := by
  refine forall₂_map_right_iff.mpr (retained.imp fun before after ⟨text, kept⟩ => ?_)
  split
  · rw [Settled, Retained, fields_mapMetadata rfl]
    exact ⟨⟨text, kept.clearToolCallsComplete⟩, fun _ _ _ => rfl⟩
  next undamaged =>
    refine ⟨⟨text, kept⟩, fun cell isCell isIn => absurd ?_ undamaged⟩
    rw [cellId_eq_fields, isCell]
    simpa using isIn

theorem settled_dropIfTooLarge {drop : ExecutedToolCall → ExecutedToolCall}
    (keeps : KeepsCalls drop) (settled : Forall₂ (Settled damaged) originals items) :
    Forall₂ (Settled damaged) originals (dropIfTooLarge drop items) := by
  unfold dropIfTooLarge
  split
  · exact settled
  · refine forall₂_map_right_iff.mpr (settled.imp fun before after ⟨⟨text, kept⟩, revoked⟩ => ?_)
    rw [Settled, Retained, fields_mapMetadata rfl]
    exact ⟨⟨text, kept.mapCalls keeps⟩, revoked⟩

/-- No share is larger than what remains, and the items with metadata are not undercounted. -/
theorem shareBudget_spec (recent : Bool) (retained : Forall₂ (Retained damaged) originals items)
    (count bytes : Nat)
    (enough : (items.countP fun item => 0 < executedToolCallMetadataBytes item) ≤ count) :
    ∃ result lost, shareBudget recent count bytes items = some (result, lost) ∧
      metadataBytes result ≤ bytes ∧
      ∀ more, damaged ⊆ more → lost ⊆ more → Forall₂ (Retained more) originals result := by
  induction retained generalizing count bytes with
  | nil => exact ⟨[], [], rfl, Nat.zero_le _, fun _ _ _ => .nil⟩
  | @cons before item originals items head tail ih =>
    unfold shareBudget
    rw [countP_cons] at enough
    by_cases empty : executedToolCallMetadataBytes item = 0
    · obtain ⟨result, lost, shared, small, kept⟩ := ih count bytes (by omega)
      refine ⟨item :: result, lost, by rw [if_pos empty, shared]; rfl, ?_, fun more first second =>
        .cons ⟨head.1, head.2.mono first⟩ (kept more first second)⟩
      rwa [metadataBytes, map_cons, sum_cons, empty, Nat.zero_add]
    · rw [if_pos (decide_eq_true (Nat.pos_of_ne_zero empty))] at enough
      rw [if_neg empty, if_neg (by omega : count ≠ 0)]
      have share : (if recent then bytes else bytes / count) ≤ bytes := by
        split
        · exact Nat.le_refl _
        · exact Nat.div_le_self _ _
      dsimp only
      generalize (if recent then bytes else bytes / count) = budget at share ⊢
      generalize choice : (if budget < executedToolCallMetadataBytes item then
        (item.boundToBudget budget, item.cellId.toList) else (item, [])) = bounded
      have within : executedToolCallMetadataBytes bounded.1 ≤ bytes ∧ ∀ more,
          damaged ⊆ more → bounded.2 ⊆ more → Retained more before bounded.1 := by
        split at choice
        · cases choice
          refine ⟨?_, fun more first own => ⟨head.1, ?_⟩⟩
          · rw [executedToolCallMetadataBytes_eq, fields_boundToBudget]
            exact (bytesOf_bounded_le budget).trans share
          · rw [fields_boundToBudget]
            refine (head.2.mono first).boundToBudget budget fun cell isCell => own ?_
            rw [cellId_eq_fields, isCell]
            exact mem_singleton_self cell
        next fits =>
          cases choice
          exact ⟨(Nat.le_of_not_lt fits).trans share, fun more first _ =>
            ⟨head.1, head.2.mono first⟩⟩
      obtain ⟨result, lost, shared, small, kept⟩ := ih (count - 1)
        (bytes - executedToolCallMetadataBytes bounded.1) (by omega)
      refine ⟨bounded.1 :: result, bounded.2 ++ lost, by rw [shared]; rfl, ?_,
        fun more first second => ?_⟩
      · rw [metadataBytes] at small ⊢
        rw [map_cons, sum_cons]
        omega
      · obtain ⟨own, others⟩ := append_subset.mp second
        exact .cons (within.2 more first own) (kept more first others)

theorem metadataBytes_clearDamaged_le (items : List (ResponseItem Content)) :
    metadataBytes (clearDamagedCellCompleteness damaged items) ≤ metadataBytes items := by
  unfold metadataBytes clearDamagedCellCompleteness
  rw [map_map]
  refine sum_le_sum fun item _ => ?_
  rw [Function.comp_apply]
  split
  · rw [executedToolCallMetadataBytes_eq, executedToolCallMetadataBytes_eq, fields_mapMetadata rfl]
    exact bytesOf_clearToolCallsComplete_le
  · exact Nat.le_refl _

theorem bound_settled (items : List (ResponseItem Content)) (recent : Bool) : ∃ result damaged,
      boundExecutedToolCallsForPromptWithPriority items recent = some result ∧
      metadataBytes result ≤ maxExecutedToolCallMetadataBytes ∧
      Forall₂ (Settled damaged) items result := by
  unfold boundExecutedToolCallsForPromptWithPriority
  dsimp only
  generalize isDamaged : (items.map (·.mapMetadata boundArguments)).filterMap _ = damaged
  have truncated : Forall₂ (Retained damaged) items
      (items.map (·.mapMetadata boundArguments)) := by
    refine forall₂_map_right_iff.mpr (forall₂_same.mpr fun item mem => ⟨rfl, ?_⟩)
    rw [fields_mapMetadata rfl]
    refine kept_boundArguments fun cuts cell isCell => ?_
    rw [← isDamaged, mem_filterMap]
    refine ⟨_, mem_map_of_mem mem, ?_⟩
    obtain ⟨text, none | metadata⟩ := item
    · cases isCell
    · exact (if_pos cuts).trans (boundArguments_fields.2.1.trans isCell)
  have omitted := settled_dropIfTooLarge (fun call => ⟨rfl, rfl⟩ : KeepsCalls
    omitToolResultMetadata) (settled_clearDamaged truncated)
  have cleared := settled_dropIfTooLarge (fun call => ⟨rfl, rfl⟩ : KeepsCalls
    clearToolResultMetadata) omitted
  have ready := settled_dropIfTooLarge (fun call => ⟨rfl, rfl⟩ : KeepsCalls
    clearToolResultSources) cleared
  split
  next small =>
    exact ⟨_, damaged, rfl, small, ready⟩
  · obtain ⟨result, lost, shared, small, kept⟩ := shareBudget_spec recent
      (ready.imp fun _ _ settled => settled.1) _ maxExecutedToolCallMetadataBytes
      (Nat.le_refl _)
    rw [shared]
    exact ⟨_, damaged ++ lost, rfl, (metadataBytes_clearDamaged_le _).trans small,
      settled_clearDamaged (kept _ (subset_append_left _ _) (subset_append_right _ _))⟩

/-- A settled request is not changed again. -/
theorem bound_eq_of_settled (small : metadataBytes result ≤ maxExecutedToolCallMetadataBytes)
    (settled : ∀ after ∈ result, ∃ before, Settled damaged before after) (recent : Bool) :
    boundExecutedToolCallsForPromptWithPriority result recent = some result := by
  have same : result.map (·.mapMetadata boundArguments) = result := by
    refine (map_congr_left fun after mem => ?_).trans (map_id result)
    obtain ⟨before, ⟨_, kept⟩, _⟩ := settled after mem
    obtain ⟨text, none | metadata⟩ := after
    · rfl
    · exact congrArg (fun fields => ResponseItem.mk text (some fields)) kept.boundArguments_eq
  have cleared : ∀ cells ⊆ damaged, clearDamagedCellCompleteness cells result = result := by
    intro cells subset
    refine (map_congr_left fun after mem => ?_).trans (map_id result)
    obtain ⟨before, _, revoked⟩ := settled after mem
    split
    next harmed =>
      obtain ⟨cell, isCell, isIn⟩ := (Option.any_eq_true _ _).mp harmed
      obtain ⟨text, none | metadata⟩ := after
      · rfl
      · have complete := revoked cell isCell (subset (contains_iff_mem.mp isIn))
        exact congrArg (fun complete => ResponseItem.mk text
          (some { metadata with toolCallsComplete := complete })) complete.symm
    · rfl
  have kept (drop : ExecutedToolCall → ExecutedToolCall) : dropIfTooLarge drop result = result :=
    if_pos small
  unfold boundExecutedToolCallsForPromptWithPriority
  dsimp only
  rw [same, cleared, kept, kept, kept, if_pos small]
  intro cell mem
  obtain ⟨after, isAfter, found⟩ := mem_filterMap.mp mem
  obtain ⟨before, ⟨_, kept⟩, _⟩ := settled after isAfter
  obtain ⟨text, none | metadata⟩ := after
  · cases found
  · rw [Option.bind_some, Option.ite_none_right_eq_some] at found
    exact (kept.marked found.1).2 cell found.2

/-- What a caller may rely on after a request was bounded. -/
structure BoundedHonestly (items result : List (ResponseItem Content)) : Prop where
  small : metadataBytes result ≤ maxExecutedToolCallMetadataBytes
  itemwise : Forall₂ (fun before after => after.content = before.content ∧
    after.fields.otherFields = before.fields.otherFields ∧
    (after.fields.standsFor = before.fields.standsFor ∨
      after.fields.standsFor = min before.fields.standsFor usizeMax ∨ after.fields.IsRemoved))
    items result
  complete : ∀ pair ∈ items.zip result, pair.2.fields.toolCallsComplete = some true →
    pair.2.fields.recordedCalls = pair.1.fields.recordedCalls ∧
    pair.2.fields.hasTruncation = false ∧
    ∀ other ∈ items.zip result, ∀ cell, pair.1.fields.cellId = some cell →
      other.1.fields.cellId = some cell →
        other.2.fields.recordedCalls = other.1.fields.recordedCalls
  stable : boundExecutedToolCallsForPrompt result = some result ∧
    boundExecutedToolCallsForPromptPrioritizingRecent result = some result

theorem boundedHonestly_of_settled (small : metadataBytes result ≤ maxExecutedToolCallMetadataBytes)
    (settled : Forall₂ (Settled damaged) items result) : BoundedHonestly items result := by
  obtain ⟨_, pairs⟩ := forall₂_iff_zip.mp settled
  obtain ⟨each, _⟩ : (∀ after ∈ result, ∃ before, Settled damaged before after) ∧
      Forall₂ (fun _ _ => True) result items :=
    (forall₂_and_left _ _).mp (settled.flip.imp fun _ before both => ⟨⟨before, both⟩, trivial⟩)
  refine ⟨small, ?_, ?_, bound_eq_of_settled small each false, ?_⟩
  · exact settled.imp fun _ _ both => ⟨both.1.1, both.1.2.otherFields, both.1.2.counted⟩
  · rintro ⟨before, after⟩ mem complete
    obtain ⟨⟨_, kept⟩, revoked⟩ := pairs mem
    have claimed : ¬ after.fields.toolCallsComplete = none := by
      rw [complete]
      exact Option.some_ne_none true
    obtain ⟨cellId, noted⟩ := kept.intact.resolve_right fun harmed => claimed harmed.1
    refine ⟨noted, ?_, ?_⟩
    · cases cuts : after.fields.hasTruncation with
      | true => exact absurd (kept.marked cuts).1 claimed
      | false => rfl
    · rintro ⟨other, otherAfter⟩ otherMem cell isCell otherCell
      obtain ⟨⟨_, otherKept⟩, _⟩ := pairs otherMem
      refine (otherKept.intact.resolve_right fun harmed => claimed ?_).2
      exact revoked cell (cellId.trans isCell) (harmed.2 cell otherCell)
  · rw [boundExecutedToolCallsForPromptPrioritizingRecent, bound_eq_of_settled
      (by rwa [metadataBytes, map_reverse, sum_reverse]) (by simpa using each),
      Option.map_some, reverse_reverse]

/-- Both ways of bounding have a result for every request, and it is honest. -/
theorem bound_boundedHonestly (items : List (ResponseItem Content)) :
    (∃ result, boundExecutedToolCallsForPrompt items = some result ∧
      BoundedHonestly items result) ∧
    ∃ result, boundExecutedToolCallsForPromptPrioritizingRecent items = some result ∧
      BoundedHonestly items result := by
  constructor
  · obtain ⟨result, damaged, bounded, small, settled⟩ := bound_settled items false
    exact ⟨result, bounded, boundedHonestly_of_settled small settled⟩
  · obtain ⟨result, damaged, bounded, small, settled⟩ := bound_settled items.reverse true
    have restored : Forall₂ (Settled damaged) items result.reverse := by
      rwa [← forall₂_reverse_iff, reverse_reverse]
    exact ⟨result.reverse, congrArg (·.map reverse) bounded, boundedHonestly_of_settled
      (by rwa [metadataBytes, map_reverse, sum_reverse]) restored⟩

end

/-- A record that already stands for as many calls as can be counted, and one more call. -/
def countedOut (name : Text) : ResponseItem Unit where
  content := ()
  metadata := some { executedToolCalls := some [
    ⟨[], .truncated ⟨0, 0, some (usizeMax - 1), none⟩, none, none⟩,
    ⟨name, .raw "null".toList, none, none⟩] }

theorem bound_countedOut {name : Text}
    (long : maxExecutedToolCallMetadataBytes < utf8Length (string name)) :
    boundExecutedToolCallsForPrompt [countedOut name] =
      some [(countedOut name).boundToBudget maxExecutedToolCallMetadataBytes] := by
  have large : maxExecutedToolCallMetadataBytes <
      executedToolCallMetadataBytes (countedOut name) := by
    change _ < utf8Length (array [_, object _]) + _
    rw [utf8Length_array, map_cons, map_singleton, utf8Length_object]
    simp only [member, Option.toList_some, map_cons, sum_cons, cons_append]
    omega
  have total : ¬ metadataBytes [countedOut name] ≤ maxExecutedToolCallMetadataBytes := by
    simpa [metadataBytes] using large
  have dropped (drop : ExecutedToolCall → ExecutedToolCall)
      (same : (countedOut name).mapMetadata (·.mapCalls drop) = countedOut name) :
      dropIfTooLarge drop [countedOut name] = [countedOut name] :=
    (if_neg total).trans (congrArg (fun item => [item]) same)
  have truncated : [countedOut name].map (·.mapMetadata boundArguments) = [countedOut name] := rfl
  have undamaged (items : List (ResponseItem Unit)) :
      clearDamagedCellCompleteness [] items = items := by
    simp [clearDamagedCellCompleteness]
  unfold boundExecutedToolCallsForPrompt boundExecutedToolCallsForPromptWithPriority
  dsimp only
  rw [truncated, filterMap_cons_none rfl, filterMap_nil, undamaged, dropped _ rfl, dropped _ rfl,
    dropped _ rfl, if_neg total, countP_singleton, if_pos (decide_eq_true (by omega)), shareBudget,
    if_neg (by omega), if_neg Nat.one_ne_zero]
  dsimp only
  rw [if_neg Bool.false_ne_true, Nat.div_one, if_pos large, shareBudget]
  exact congrArg some (undamaged _)

def longName : Text := replicate maxExecutedToolCallMetadataBytes 'a'

theorem omitted_count_saturates : ∃ after,
    boundExecutedToolCallsForPrompt [countedOut longName] = some [after] ∧
      after.fields.executedToolCalls ≠ none ∧
      after.fields.standsFor ≠ (countedOut longName).fields.standsFor := by
  refine ⟨_, bound_countedOut ?_, by decide +kernel, by decide +kernel⟩
  rw [longName, utf8Length_string_replicate _ _ (by decide) rfl]
  omega

end CodexFormal.Protocol
