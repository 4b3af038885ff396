import CodexFormal.Foundation.BigEndian
import CodexFormal.NoiseRelay.OrderedCiphertext

/-!
# Length-prefixed messages in a stream of records

A message is sent as four bytes with its length followed by its bytes.  The
decoder appends each record to its buffer and takes every complete message off
the front.  As in the source, what is left in the buffer by an error is part of
the result.
-/

set_option autoImplicit false

namespace CodexFormal.NoiseRelay

open Foundation List

def lengthPrefixBytes : Nat := 4
def maxNoiseJsonrpcMessageLen : Nat := 64 * 1024 * 1024
def noiseRecordPlaintextLen : Nat := 60 * 1024

def messageLengthPrefix (messageLen : Nat) : Except String Bytes :=
  if messageLen = 0 ∨ messageLen > maxNoiseJsonrpcMessageLen then
    .error "Noise relay JSON-RPC message exceeds maximum length"
  else .ok (toBeBytes messageLen)

def frameMessage (message : Bytes) : Except String Bytes :=
  match messageLengthPrefix message.length with
  | .error error => .error error
  | .ok lengthPrefix => .ok (lengthPrefix ++ message)

structure MessageDecoder where
  buffered : Bytes
deriving DecidableEq, Repr

/-- The loop that takes complete messages off the buffer. -/
def takeMessages (buffered : Bytes) (messages : List Bytes) : Bytes × Except String (List Bytes) :=
  match buffered with
  | first :: second :: third :: fourth :: rest =>
    let messageLen := fromBeBytes first second third fourth
    if messageLen = 0 ∨ messageLen > maxNoiseJsonrpcMessageLen then
      (first :: second :: third :: fourth :: rest,
        .error "Noise relay JSON-RPC message has invalid length")
    else if rest.length < messageLen then
      (first :: second :: third :: fourth :: rest, .ok messages)
    else takeMessages (rest.drop messageLen) (messages ++ [rest.take messageLen])
  | short => (short, .ok messages)
termination_by buffered.length
decreasing_by
  simp only [length_drop, length_cons]
  omega

def MessageDecoder.push (decoder : MessageDecoder) (plaintextRecord : Bytes) :
    MessageDecoder × Except String (List Bytes) :=
  if plaintextRecord.length > noiseRecordPlaintextLen then
    (decoder, .error "Noise relay plaintext record exceeds maximum length")
  else
    match takeMessages (decoder.buffered ++ plaintextRecord) [] with
    | (buffered, .error error) => (⟨buffered⟩, .error error)
    | (buffered, .ok messages) =>
      if buffered.length > lengthPrefixBytes + maxNoiseJsonrpcMessageLen then
        (⟨buffered⟩,
          .error "Noise relay JSON-RPC reassembly buffer exceeds maximum length")
      else (⟨buffered⟩, .ok messages)

variable (msg framed : Bytes)

variable {msg framed} in
theorem frameMessage_eq (run : frameMessage msg = .ok framed) :
    framed = toBeBytes msg.length ++ msg ∧ 0 < msg.length ∧
    msg.length ≤ maxNoiseJsonrpcMessageLen := by
  unfold frameMessage messageLengthPrefix at run
  by_cases refused : msg.length = 0 ∨ msg.length > maxNoiseJsonrpcMessageLen
  · rw [if_pos refused] at run
    contradiction
  · simp only [refused, if_false, Except.ok.injEq] at run
    exact ⟨run.symm, by omega, by omega⟩

theorem frameMessage_ok (msg : Bytes) (ne : 0 < msg.length)
    (bounded : msg.length ≤ maxNoiseJsonrpcMessageLen) :
    frameMessage msg = .ok (toBeBytes msg.length ++ msg) := by
  have isOk : ¬ (msg.length = 0 ∨ msg.length > maxNoiseJsonrpcMessageLen) := by
    omega
  unfold frameMessage messageLengthPrefix
  rw [if_neg isOk]

theorem length_frameMessage (run : frameMessage msg = .ok framed) :
    framed.length = lengthPrefixBytes + msg.length := by
  obtain ⟨rfl, _⟩ := frameMessage_eq run
  simp only [toBeBytes, lengthPrefixBytes, length_append, length_cons, length_nil]

theorem takeMessages_framed (run : frameMessage msg = .ok framed) :
    takeMessages framed [] = ([], .ok [msg]) := by
  obtain ⟨rfl, pos, bounded⟩ := frameMessage_eq run
  have small : msg.length < 2 ^ 32 := by
    have limit : maxNoiseJsonrpcMessageLen < 2 ^ 32 := by decide
    omega
  have valid : ¬ (msg.length = 0 ∨ msg.length > maxNoiseJsonrpcMessageLen) := by omega
  have complete : ¬ msg.length < msg.length := by omega
  simp only [toBeBytes, cons_append, nil_append]
  rw [takeMessages]
  simp only [fromBeBytes_toBeBytes small, valid, complete, if_false,
    drop_length, take_length, nil_append]
  rw [takeMessages]
  intro first second third fourth rest impossible
  contradiction

theorem takeMessages_incomplete {msg framed front rest : Bytes}
    (run : frameMessage msg = .ok framed) (split : framed = front ++ rest)
    (unfinished : rest ≠ []) : takeMessages front [] = (front, .ok []) := by
  obtain ⟨rfl, pos, bounded⟩ := frameMessage_eq run
  have small : msg.length < 2 ^ 32 := by
    have limit : maxNoiseJsonrpcMessageLen < 2 ^ 32 := by decide
    omega
  have valid : ¬ (msg.length = 0 ∨ msg.length > maxNoiseJsonrpcMessageLen) := by omega
  match front, split with
  | first :: second :: third :: fourth :: rest, split =>
    simp only [toBeBytes, cons_append, nil_append, List.cons.injEq] at split
    obtain ⟨rfl, rfl, rfl, rfl, body⟩ := split
    have short : rest.length < msg.length := by
      have := length_pos_iff.mpr unfinished
      rw [body, length_append]
      omega
    rw [takeMessages]
    simp only [fromBeBytes_toBeBytes small, valid, short, if_false, if_true]
  | [], _ => simp [takeMessages]
  | [_], _ => simp [takeMessages]
  | [_, _], _ => simp [takeMessages]
  | [_, _, _], _ => simp [takeMessages]

theorem push_last {msg framed front record : Bytes}
    (run : frameMessage msg = .ok framed) (split : framed = front ++ record)
    (sized : record.length ≤ noiseRecordPlaintextLen) :
    MessageDecoder.push ⟨front⟩ record = (⟨[]⟩, .ok [msg]) := by
  have fits : ¬ record.length > noiseRecordPlaintextLen := by omega
  unfold MessageDecoder.push
  rw [if_neg fits, ← split, takeMessages_framed msg framed run]
  rfl

theorem push_inner {msg framed front record rest : Bytes} (run : frameMessage msg = .ok framed)
    (split : framed = front ++ record ++ rest) (unfinished : rest ≠ [])
    (sized : record.length ≤ noiseRecordPlaintextLen) :
    MessageDecoder.push ⟨front⟩ record = (⟨front ++ record⟩, .ok []) := by
  have fits : ¬ record.length > noiseRecordPlaintextLen := by omega
  have room : ¬ (front ++ record).length > lengthPrefixBytes + maxNoiseJsonrpcMessageLen := by
    have whole := length_frameMessage msg framed run
    obtain ⟨_, _, bounded⟩ := frameMessage_eq run
    rw [split, length_append] at whole
    omega
  unfold MessageDecoder.push
  rw [if_neg fits, takeMessages_incomplete run split unfinished]
  simp only [if_neg room]

namespace MessageDecoder

def pushNext (state : MessageDecoder × List Bytes) (record : Bytes) :
    Except String (MessageDecoder × List Bytes) :=
  let (decoder, result) := state.1.push record
  result.map fun messages => (decoder, state.2 ++ messages)

/-- The records of a stream are pushed in turn until one is refused. -/
def pushAll (records : List Bytes) : Except String (MessageDecoder × List Bytes) :=
  records.foldlM pushNext (⟨[]⟩, [])

variable (buffered : Bytes) (messages : List Bytes)

theorem takeMessages_accumulates (first : List Bytes) :
    takeMessages buffered (first ++ messages) = ((takeMessages buffered messages).1,
    (takeMessages buffered messages).2.map (first ++ ·)) := by
  fun_induction takeMessages buffered messages with
  | case1 messages a b c d rest messageLen refused =>
    rw [takeMessages, if_pos refused]
    rfl
  | case2 messages a b c d rest messageLen valid short =>
    rw [takeMessages, if_neg valid, if_pos short]
    rfl
  | case3 messages a b c d rest messageLen valid complete ih =>
    rw [takeMessages, if_neg valid, if_neg complete, append_assoc]
    exact ih
  | case4 short messages tooShort =>
    rw [takeMessages]
    · rfl
    · exact tooShort

theorem takeMessages_append (more : Bytes) : takeMessages (buffered ++ more) messages =
    match takeMessages buffered messages with
    | (left, .ok messages) => takeMessages (left ++ more) messages
    | (left, .error error) => (left ++ more, .error error) := by
  fun_induction takeMessages buffered messages with
  | case1 messages a b c d rest messageLen refused =>
    simp only [cons_append]
    rw [takeMessages, if_pos refused]
  | case2 messages a b c d rest messageLen valid short => rfl
  | case3 messages a b c d rest messageLen valid complete ih =>
    have longer : ¬ (rest ++ more).length < messageLen := by
      rw [length_append]
      omega
    simp only [cons_append]
    have enough := Nat.not_lt.mp complete
    rw [takeMessages, if_neg valid, if_neg longer, drop_append_of_le_length enough,
      take_append_of_le_length enough, ih]
  | case4 short messages tooShort => rfl

/-- What is left is shorter than a message may be, so the limit of the buffer is never met. -/
theorem length_takeMessages {buffered left : Bytes} {before messages : List Bytes}
    (run : takeMessages buffered before = (left, .ok messages)) :
    left.length ≤ lengthPrefixBytes + maxNoiseJsonrpcMessageLen := by
  fun_induction takeMessages buffered before with
  | case1 => cases run
  | case2 before a b c d rest messageLen valid short =>
    cases run
    simp only [length_cons, lengthPrefixBytes]
    omega
  | case3 before a b c d rest messageLen valid complete ih => exact ih run
  | case4 short before tooShort =>
    cases run
    match left, tooShort with
    | a :: b :: c :: d :: rest, tooShort => exact (tooShort _ _ _ _ _ rfl).elim
    | [], _ | [_], _ | [_, _], _ | [_, _, _], _ => simp +decide

theorem pushNext_eq {left record : Bytes} (fits : record.length ≤ noiseRecordPlaintextLen) :
    pushNext (⟨left⟩, messages) record = (takeMessages (left ++ record) messages).2.map
      (⟨(takeMessages (left ++ record) messages).1⟩, ·) := by
  have all := takeMessages_accumulates (left ++ record) [] messages
  rw [append_nil] at all
  rw [all, pushNext, push, if_neg (Nat.not_lt.mpr fits)]
  cases taken : takeMessages (left ++ record) [] with
  | mk left result =>
    cases result with
    | error error => rfl
    | ok more => simp only [if_neg (Nat.not_lt.mpr (length_takeMessages taken)), Except.map]

/-- However a stream is cut, its messages and the bytes left over are those of the whole. -/
theorem pushAll_eq_takeMessages (records : List Bytes)
    (sized : ∀ record ∈ records, record.length ≤ noiseRecordPlaintextLen) :
    pushAll records = (takeMessages records.flatten []).2.map
      (⟨(takeMessages records.flatten []).1⟩, ·) := by
  unfold pushAll
  induction records using reverseRecOn with
  | nil =>
    rw [flatten_nil, takeMessages]
    · rfl
    · nofun
  | append_singleton records record ih =>
    have fits := sized record (mem_append_right _ (mem_singleton.mpr rfl))
    rw [foldlM_append, ih fun record mem => sized record (mem_append_left _ mem), flatten_append,
      flatten_singleton, takeMessages_append]
    cases takeMessages records.flatten [] with
    | mk left result =>
      cases result with
      | error error => rfl
      | ok messages =>
        rw [← pushNext_eq messages fits]
        exact bind_pure (pushNext (⟨left⟩, messages) record)

theorem pushAll_two_records : pushAll [[0, 0, 0], [1, 7, 0]] = .ok (⟨[0]⟩, [[7]]) := by
  rw [pushAll_eq_takeMessages _ (by decide)]
  simp [takeMessages, fromBeBytes, maxNoiseJsonrpcMessageLen, Except.map]

end MessageDecoder

end CodexFormal.NoiseRelay
