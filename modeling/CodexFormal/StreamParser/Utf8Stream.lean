import CodexFormal.Foundation.Utf8
import CodexFormal.StreamParser.InlineHiddenTag

/-!
# Byte streams

A parser for text is fed with bytes.  Bytes that end inside a character are kept
until the rest of it arrives; a chunk that is not valid is taken back as a whole.
-/

set_option autoImplicit false

namespace CodexFormal.StreamParser

open Foundation Foundation.Utf8 Patch List
open String (utf8EncodeChar)

structure StreamTextParser (State Extracted : Type) where
  pushStr : State → Text → State × StreamTextChunk Extracted
  finish : State → State × StreamTextChunk Extracted

inductive Utf8StreamParserError where
  | invalidUtf8 (validUpTo errorLen : Nat)
  | incompleteUtf8AtEof
deriving DecidableEq, Repr

structure Utf8StreamParser (State : Type) where
  inner : State
  pendingUtf8 : List UInt8

namespace StreamTextChunk

def empty {Extracted : Type} : StreamTextChunk Extracted := ⟨[], []⟩

end StreamTextChunk

variable {State Extracted : Type} (parser : StreamTextParser State Extracted)

namespace Utf8StreamParser

def new (inner : State) : Utf8StreamParser State := ⟨inner, []⟩

variable (self : Utf8StreamParser State)

def pushBytes (chunk : List UInt8) :
    Except Utf8StreamParserError (StreamTextChunk Extracted) × Utf8StreamParser State :=
  let oldLen := self.pendingUtf8.length
  let pending := self.pendingUtf8 ++ chunk
  match fromUtf8 pending with
  | .ok text =>
    let pushed := parser.pushStr self.inner text
    (.ok pushed.2, ⟨pushed.1, []⟩)
  | .error failure =>
    match failure.errorLen with
    | some errorLen =>
      (.error (.invalidUtf8 failure.validUpTo errorLen), ⟨self.inner, pending.take oldLen⟩)
    | none =>
      if failure.validUpTo = 0 then (.ok .empty, ⟨self.inner, pending⟩)
      else
        match fromUtf8 (pending.take failure.validUpTo) with
        | .ok text =>
          let pushed := parser.pushStr self.inner text
          (.ok pushed.2, ⟨pushed.1, pending.drop failure.validUpTo⟩)
        | .error prefixFailure =>
          (.error (.invalidUtf8 prefixFailure.validUpTo (prefixFailure.errorLen.getD 0)),
            ⟨self.inner, pending.take oldLen⟩)

def finish : Except Utf8StreamParserError (StreamTextChunk Extracted) × Utf8StreamParser State :=
  if self.pendingUtf8.isEmpty then
    let tail := parser.finish self.inner
    (.ok (StreamTextChunk.empty.append tail.2), ⟨tail.1, []⟩)
  else
    match fromUtf8 self.pendingUtf8 with
    | .error failure =>
      match failure.errorLen with
      | some errorLen => (.error (.invalidUtf8 failure.validUpTo errorLen), self)
      | none => (.error .incompleteUtf8AtEof, self)
    | .ok text =>
      let pushed := parser.pushStr self.inner text
      let tail := parser.finish pushed.1
      (.ok (pushed.2.append tail.2), ⟨tail.1, []⟩)

end Utf8StreamParser

inductive Utf8Call where
  | pushBytes (chunk : List UInt8)
  | finish

def Utf8Call.apply (self : Utf8StreamParser State) : Utf8Call → Utf8StreamParser State
  | .pushBytes chunk => (self.pushBytes parser chunk).2
  | .finish => (self.finish parser).2

/-- The output of the inner parser for a text that arrives in parts. -/
def totalOutput (inner : State) : List Text → StreamTextChunk Extracted
  | [] => (parser.finish inner).2
  | text :: rest =>
    (parser.pushStr inner text).2.append (totalOutput (parser.pushStr inner text).1 rest)

def acceptedChunks (self : Utf8StreamParser State) : List (List UInt8) → List (List UInt8)
  | [] => []
  | chunk :: rest =>
    match self.pushBytes parser chunk with
    | (.ok _, next) => chunk :: acceptedChunks next rest
    | (.error _, next) => acceptedChunks next rest

/-- The output of the accepted chunks and of the end, if the end is accepted. -/
def byteOutput (self : Utf8StreamParser State) :
    List (List UInt8) → Option (StreamTextChunk Extracted)
  | [] => (self.finish parser).1.toOption
  | chunk :: rest =>
    match self.pushBytes parser chunk with
    | (.ok out, next) => (byteOutput next rest).map out.append
    | (.error _, next) => byteOutput next rest

/-- Pending bytes: none, or the begin of one character. -/
def Pending (bytes : List UInt8) : Prop := bytes = [] ∨ EndsInside bytes ∧ StartsNoChar bytes

theorem Pending.startsNoChar {bytes : List UInt8} (pending : Pending bytes) :
    StartsNoChar bytes := by
  rcases pending with rfl | ⟨_, stops⟩
  · exact startsNoChar_nil
  · exact stops

/-- What one chunk does: it is refused and leaves everything as it was, or it is accepted and the
text it completes, if any, goes to the inner parser. -/
inductive PushEffect (self : Utf8StreamParser State) (chunk : List UInt8) :
    Except Utf8StreamParserError (StreamTextChunk Extracted) × Utf8StreamParser State → Prop where
  | refused (failure : Utf8StreamParserError) : PushEffect self chunk (.error failure, self)
  | held (pending : Pending (self.pendingUtf8 ++ chunk)) :
      PushEffect self chunk (.ok .empty, ⟨self.inner, self.pendingUtf8 ++ chunk⟩)
  | pushed (text : Text) (rest : List UInt8)
      (split : self.pendingUtf8 ++ chunk = encode text ++ rest) (pending : Pending rest) :
      PushEffect self chunk
        (.ok (parser.pushStr self.inner text).2, ⟨(parser.pushStr self.inner text).1, rest⟩)

variable (self : Utf8StreamParser State)

theorem pushBytes_effect (chunk : List UInt8) :
    PushEffect parser self chunk (self.pushBytes parser chunk) := by
  have read := fromUtf8_decoded (self.pendingUtf8 ++ chunk)
  have restored : (⟨self.inner, (self.pendingUtf8 ++ chunk).take self.pendingUtf8.length⟩ :
      Utf8StreamParser State) = self := by
    rw [take_left]
  unfold Utf8StreamParser.pushBytes
  simp only
  cases res : fromUtf8 (self.pendingUtf8 ++ chunk) with
  | ok text =>
    rw [res] at read
    refine .pushed text [] ?_ (.inl rfl)
    rw [append_nil]
    exact read
  | error failure =>
    rw [res] at read
    obtain ⟨text, rest, isBytes, ne, stops, validUpTo, endsInside⟩ := read
    cases errorLen : failure.errorLen with
    | some length =>
      simp only [errorLen, restored]
      exact .refused _
    | none =>
      have pending : Pending rest := Or.inr ⟨endsInside errorLen, stops⟩
      simp only [errorLen]
      by_cases isZero : failure.validUpTo = 0
      · rw [if_pos isZero]
        rw [validUpTo] at isZero
        rw [length_eq_zero_iff.mp isZero, nil_append] at isBytes
        exact .held (isBytes ▸ pending)
      · rw [if_neg isZero, validUpTo, isBytes, take_left, fromUtf8_encode, drop_left]
        exact .pushed text rest isBytes pending

theorem pushBytes_error (chunk : List UInt8)
    (failure : Utf8StreamParserError) (refused : (self.pushBytes parser chunk).1 = .error failure) :
    (self.pushBytes parser chunk).2 = self := by
  have effect := pushBytes_effect parser self chunk
  generalize self.pushBytes parser chunk = result at *
  cases effect with
  | refused => rfl
  | _ => cases refused

theorem finish_pending (pending : Pending self.pendingUtf8) :
    Pending (self.finish parser).2.pendingUtf8 := by
  unfold Utf8StreamParser.finish
  split
  · exact .inl rfl
  · split
    · split
      · exact pending
      · exact pending
    · exact .inl rfl

theorem call_pending (call : Utf8Call)
    (pending : Pending self.pendingUtf8) : Pending (call.apply parser self).pendingUtf8 := by
  cases call with
  | finish => exact finish_pending parser self pending
  | pushBytes chunk =>
    have effect := pushBytes_effect parser self chunk
    change Pending (self.pushBytes parser chunk).2.pendingUtf8
    generalize self.pushBytes parser chunk = result at *
    cases effect with
    | refused => exact pending
    | held held => exact held
    | pushed _ _ _ rest => exact rest

theorem calls_pending (calls : List Utf8Call) (self : Utf8StreamParser State)
    (pending : Pending self.pendingUtf8) :
    Pending (calls.foldl (Utf8Call.apply parser) self).pendingUtf8 := by
  induction calls generalizing self with
  | nil => exact pending
  | cons call rest ih => exact ih _ (call_pending parser self call pending)

/-- The accepted bytes are the texts that went to the inner parser and what is still pending. -/
theorem byteOutput_texts (chunks : List (List UInt8)) (self : Utf8StreamParser State)
    (pending : Pending self.pendingUtf8) : ∃ texts rest, Pending rest ∧
    self.pendingUtf8 ++ (acceptedChunks parser self chunks).flatten = encode texts.flatten ++ rest ∧
    (rest = [] → byteOutput parser self chunks = some (totalOutput parser self.inner texts)) := by
  induction chunks generalizing self with
  | nil =>
    refine ⟨[], self.pendingUtf8, pending, by simp [acceptedChunks], fun empty => ?_⟩
    simp only [byteOutput, Utf8StreamParser.finish, empty, isEmpty_nil, if_true]
    rfl
  | cons chunk rest ih =>
    have effect := pushBytes_effect parser self chunk
    unfold acceptedChunks byteOutput
    generalize self.pushBytes parser chunk = result at *
    cases effect with
    | refused failure => exact ih self pending
    | held held =>
      obtain ⟨texts, last, lastPending, isBytes, output⟩ := ih ⟨self.inner, _⟩ held
      refine ⟨texts, last, lastPending, ?_, fun empty => ?_⟩
      · rw [flatten_cons, ← append_assoc]
        exact isBytes
      · simp only
        rw [output empty]
        rfl
    | pushed text later split laterPending =>
      obtain ⟨texts, last, lastPending, isBytes, output⟩ := ih ⟨_, later⟩ laterPending
      refine ⟨text :: texts, last, lastPending, ?_, fun empty => ?_⟩
      · rw [flatten_cons, flatten_cons, encode_append, ← append_assoc, split,
          append_assoc, append_assoc]
        exact congrArg (encode text ++ ·) isBytes
      · simp only
        rw [output empty]
        rfl

/-- The output of the inner parser does not depend on how its text is cut. -/
def CutIndependent (inner : State) : Prop :=
  ∀ texts : List Text, totalOutput parser inner texts = totalOutput parser inner [texts.flatten]

/-- A refused chunk changes nothing, what is pending is the begin of one character, and valid
bytes give the output of the text that they encode. -/
theorem utf8Stream_faithful (inner : State) (independent : CutIndependent parser inner) :
    (∀ (self : Utf8StreamParser State) (chunk : List UInt8) (failure : Utf8StreamParserError),
      (self.pushBytes parser chunk).1 = .error failure →
        (self.pushBytes parser chunk).2 = self) ∧
    (∀ calls : List Utf8Call, ∃ c,
      (calls.foldl (Utf8Call.apply parser) (.new inner)).pendingUtf8 <+: utf8EncodeChar c ∧
        (calls.foldl (Utf8Call.apply parser) (.new inner)).pendingUtf8.length <
          (utf8EncodeChar c).length ∧
        (calls.foldl (Utf8Call.apply parser) (.new inner)).pendingUtf8.length ≤ 3) ∧
    ∀ (chunks : List (List UInt8)) (text : Text),
      (acceptedChunks parser (.new inner) chunks).flatten = encode text →
        byteOutput parser (.new inner) chunks = some (totalOutput parser inner [text]) := by
  refine ⟨pushBytes_error parser, fun calls => ?_, fun chunks text valid => ?_⟩
  · rcases calls_pending parser calls (.new inner) (.inl rfl) with empty | ⟨endsInside, _⟩
    · rw [empty]
      exact ⟨'a', nil_prefix, by decide, by decide⟩
    · obtain ⟨c, isPrefix, shorter⟩ := endsInside
      have short := (String.length_utf8EncodeChar c).trans_le c.utf8Size_le_four
      exact ⟨c, isPrefix, shorter, by omega⟩
  · obtain ⟨texts, rest, pending, isBytes, output⟩ :=
      byteOutput_texts parser chunks (.new inner) (.inl rfl)
    have same : encode text ++ [] = encode texts.flatten ++ rest := by
      rw [← isBytes, append_nil, ← valid]
      rfl
    obtain ⟨isText, empty⟩ := encode_append_inj text texts.flatten [] rest same startsNoChar_nil
      pending.startsNoChar
    rw [output empty.symm, isText]
    exact congrArg some (independent texts)

def echoParser : StreamTextParser Unit Unit where
  pushStr := fun _ text => ((), ⟨text, []⟩)
  finish := fun _ => ((), .empty)

theorem totalOutput_echoParser (texts : List Text) :
    totalOutput echoParser () texts = ⟨texts.flatten, []⟩ := by
  induction texts with
  | nil => rfl
  | cons text rest ih =>
    unfold totalOutput
    rw [show (echoParser.pushStr () text).1 = () from rfl, ih]
    rfl

theorem split_character_is_joined :
    byteOutput echoParser (.new ()) [[0x61, 0xC3], [0xFF], [0xA9]] =
      some (totalOutput echoParser () [['a', 'é']]) := by
  have independent : CutIndependent echoParser () := by
    intro texts
    rw [totalOutput_echoParser, totalOutput_echoParser]
    simp
  exact (utf8Stream_faithful echoParser () independent).2.2 _ ['a', 'é'] (by decide)

end CodexFormal.StreamParser
