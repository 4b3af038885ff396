import Mathlib.Data.Prod.Lex
import CodexFormal.Foundation.BoundedFamily
import CodexFormal.Foundation.JsonText
import CodexFormal.Patch.Text

/-!
# Retained context

User messages and verified answers that are kept outside of model summaries.
Each family is ordered by acceptance and bounded in its number of records and
in the size of its JSON text, after every record.
-/

set_option autoImplicit false

namespace CodexFormal.History

open Foundation
open Patch (Text)

def maxFamilyRecords : Nat := 8
def maxRecordBytes : Nat := 16384
def maxFamilyBytes : Nat := 65536

/-- Orders are 64-bit numbers. -/
def saturatingSucc (order : Nat) : Nat :=
  min (order + 1) (2 ^ 64 - 1)

structure VerifiedQuestionAnswer where
  question : Text
  answer : Text
deriving Repr, DecidableEq

structure VerifiedAnswer where
  turnId : Text
  callId : Text
  questions : List VerifiedQuestionAnswer
deriving Repr, DecidableEq

structure RetainedUserMessage where
  turnId : Text
  messageId : Option Text
  text : Text
  complete : Bool
deriving Repr, DecidableEq

inductive RetainedInputSource where
  | localInput (order : Option Nat)
  | inherited
deriving Repr, DecidableEq

def RetainedInputSource.acceptanceOrder : RetainedInputSource → Option Nat
  | .localInput order => order
  | .inherited => none

structure Ordered (α : Type) where
  inherited : Bool
  order : Nat
  value : α
deriving Repr, DecidableEq

/-- The inherited prefix comes before what the thread itself accepted. -/
abbrev RetainedContextOrder := Bool ×ₗ Nat

def Ordered.key {α : Type} (entry : Ordered α) : RetainedContextOrder :=
  toLex (!entry.inherited, entry.order)

/-- The members of a record's JSON object. -/
class Serialize (α : Type) where
  members : α → List (Text × Text)

def VerifiedQuestionAnswer.toJson (pair : VerifiedQuestionAnswer) : Text :=
  Json.object [("question".toList, Json.string pair.question),
    ("answer".toList, Json.string pair.answer)]

instance : Serialize VerifiedAnswer where
  members answer :=
    [("turn_id".toList, Json.string answer.turnId), ("call_id".toList, Json.string answer.callId),
      ("questions".toList, Json.array (answer.questions.map VerifiedQuestionAnswer.toJson))]

instance : Serialize RetainedUserMessage where
  members message :=
    [("turn_id".toList, Json.string message.turnId),
      ("message_id".toList, Json.optional Json.string message.messageId),
      ("text".toList, Json.string message.text), ("complete".toList, Json.bool message.complete)]

section Family

variable {α : Type} [Serialize α]

def recordBytes (value : α) : Nat :=
  Json.utf8Length (Json.object (Serialize.members value))

/-- The value's members are flattened into the entry, and `inherited` is left out when false. -/
def Ordered.toJson (entry : Ordered α) : Text :=
  Json.object ((if entry.inherited then [("inherited".toList, Json.bool true)] else []) ++
    ("order".toList, Json.nat entry.order) :: Serialize.members entry.value)

variable (items : List (Ordered α))

def familyBytes : Nat :=
  Json.utf8Length (Json.array (items.map Ordered.toJson))

def familyFits : Bool :=
  !(decide (maxFamilyRecords < items.length) || decide (maxFamilyBytes < familyBytes items))

/-- The family that is kept and whether its evidence is incomplete. -/
def boundFamily (incomplete : Bool) : List (Ordered α) × Bool :=
  let kept := BoundedFamily.evict familyFits (BoundedFamily.sortByKey Ordered.key items)
  (kept, incomplete || decide (kept.length < items.length))

end Family

/-- The longest start of a text that ends at a character and within the given bytes. -/
def truncateBytes : Nat → Text → Text
  | _, [] => []
  | limit, c :: rest =>
    if c.utf8Size ≤ limit then c :: truncateBytes (limit - c.utf8Size) rest else []

def RetainedUserMessage.bound (message : RetainedUserMessage) : RetainedUserMessage :=
  if maxRecordBytes < recordBytes message then
    { turnId := truncateBytes 1024 message.turnId
      messageId := message.messageId.map (truncateBytes 1024)
      text := []
      complete := false }
  else message

def VerifiedAnswer.bound (answer : VerifiedAnswer) : VerifiedAnswer :=
  if maxRecordBytes < recordBytes answer then
    { turnId := truncateBytes 1024 answer.turnId
      callId := truncateBytes 1024 answer.callId
      questions := [] }
  else answer

structure RetainedContext where
  verifiedAnswers : List (Ordered VerifiedAnswer)
  verifiedAnswersIncomplete : Bool
  userMessages : List (Ordered RetainedUserMessage)
  userMessagesIncomplete : Bool
  nextOrder : Nat
deriving Repr, DecidableEq

namespace RetainedContext

def default : RetainedContext :=
  { verifiedAnswers := []
    verifiedAnswersIncomplete := false
    userMessages := []
    userMessagesIncomplete := false
    nextOrder := 0 }

variable (context : RetainedContext)

def recordOrder (acceptanceOrder : Option Nat) : Nat × RetainedContext :=
  let order := acceptanceOrder.getD context.nextOrder
  (order, { context with nextOrder := max context.nextOrder (saturatingSucc order) })

/-- Copied instructions follow each other without moving the thread's own counter. -/
def userMessageOrder (source : RetainedInputSource) : Nat × RetainedContext :=
  if source = .inherited then
    (((context.userMessages.filter fun entry => entry.inherited).map fun entry =>
      saturatingSucc entry.order).foldl max 0, context)
  else context.recordOrder source.acceptanceOrder

variable (message : RetainedUserMessage) (source : RetainedInputSource)

def insertUserMessage : RetainedContext :=
  let (order, context) := context.userMessageOrder source
  let entry := { inherited := decide (source = .inherited), order := order, value := message }
  let (kept, incomplete) :=
    boundFamily (context.userMessages ++ [entry]) context.userMessagesIncomplete
  { context with userMessages := kept, userMessagesIncomplete := incomplete }

def isSameMessage (entry : Ordered RetainedUserMessage) : Bool :=
  message.messageId.isSome && decide (entry.value.messageId = message.messageId)

def recordUserMessage : RetainedContext :=
  let message := message.bound
  let inherited := decide (source = .inherited)
  let context := { context with
    verifiedAnswersIncomplete := context.verifiedAnswersIncomplete || inherited }
  match context.userMessages.find? (isSameMessage message) with
  | some existing =>
    if existing.value = message ∧ existing.inherited = inherited then context
    else
      insertUserMessage
        { context with userMessages := context.userMessages.eraseP (isSameMessage message) }
        message source
  | none => context.insertUserMessage message source

variable (answer : VerifiedAnswer) (acceptanceOrder : Option Nat)

def insertAnswer : RetainedContext :=
  let (order, context) := context.recordOrder acceptanceOrder
  let entry := { inherited := false, order := order, value := answer }
  let (kept, incomplete) :=
    boundFamily (context.verifiedAnswers ++ [entry]) context.verifiedAnswersIncomplete
  { context with verifiedAnswers := kept, verifiedAnswersIncomplete := incomplete }

def isSameSource (existing : Ordered VerifiedAnswer) : Bool :=
  decide (existing.value.turnId = answer.turnId) && decide (existing.value.callId = answer.callId)

/-- Whether the event changed anything, and the context after it. -/
def record : Bool × RetainedContext :=
  let answer := answer.bound
  match context.verifiedAnswers.find? (isSameSource answer) with
  | some existing =>
    if existing.value = answer then (false, context)
    else
      (true, insertAnswer
        { context with verifiedAnswers := context.verifiedAnswers.eraseP (isSameSource answer) }
        answer acceptanceOrder)
  | none => (true, context.insertAnswer answer acceptanceOrder)

end RetainedContext

end CodexFormal.History
