import Mathlib.Data.List.DropRight

/-!
# The head and tail buffer of command output

The buffer keeps the first half of its capacity and the newest bytes of the
rest.  Buffers of consecutive parts of an output can be appended to each other:
however a buffer was assembled, it is the summary of the whole output.
-/

set_option autoImplicit false

namespace CodexFormal.UnifiedExec

open List

abbrev Bytes := List UInt8

structure HeadTailBuffer where
  head : Bytes
  tail : Bytes
  omittedBytes : Nat
deriving DecidableEq, Repr

/-- Addition of machine words that stops at the largest one. -/
def saturatingAdd (usizeMax left right : Nat) : Nat := min (left + right) usizeMax

def headBudget (maxBytes : Nat) : Nat := maxBytes / 2

def tailBudget (maxBytes : Nat) : Nat := maxBytes - headBudget maxBytes

namespace HeadTailBuffer

def empty : HeadTailBuffer := ⟨[], [], 0⟩

section Push

variable (usizeMax maxBytes : Nat) (buffer : HeadTailBuffer) (chunk : Bytes)

def fillHead : HeadTailBuffer × Bytes :=
  let remainingHead := headBudget maxBytes - buffer.head.length
  if remainingHead ≤ chunk.length then
    ({ buffer with head := buffer.head ++ chunk.take remainingHead }, chunk.drop remainingHead)
  else ({ buffer with head := buffer.head ++ chunk }, [])

def pushTail : HeadTailBuffer :=
  let remainingTail := tailBudget maxBytes - buffer.tail.length
  let excessTail := chunk.length - remainingTail
  { buffer with
    omittedBytes := saturatingAdd usizeMax buffer.omittedBytes excessTail
    tail :=
      if excessTail < buffer.tail.length then buffer.tail.drop excessTail ++ chunk
      else chunk.drop (excessTail - buffer.tail.length) }

def pushChunk : HeadTailBuffer :=
  let (filled, rest) := buffer.fillHead maxBytes chunk
  filled.pushTail usizeMax maxBytes rest

def takeHead (head : Bytes) : HeadTailBuffer × Bytes :=
  if buffer.head.isEmpty then ({ buffer with head := head }, []) else buffer.fillHead maxBytes head

/-- `firstSlice` is the length of the first of the two slices in which the tail of
the appended buffer lies in memory. -/
def pushBuffer (firstSlice : Nat) (buffer later : HeadTailBuffer) : HeadTailBuffer :=
  let counted := { buffer with
    omittedBytes := saturatingAdd usizeMax buffer.omittedBytes later.omittedBytes }
  let (filled, overflow) := counted.takeHead maxBytes later.head
  if later.tail.length = tailBudget maxBytes then
    { filled with
      omittedBytes := saturatingAdd usizeMax
        (saturatingAdd usizeMax filled.omittedBytes filled.tail.length) overflow.length
      tail := later.tail }
  else
    let pushed := filled.pushTail usizeMax maxBytes overflow
    if pushed.tail.isEmpty then { pushed with tail := later.tail }
    else
      (pushed.pushTail usizeMax maxBytes (later.tail.take firstSlice)).pushTail usizeMax maxBytes
        (later.tail.drop firstSlice)

end Push

end HeadTailBuffer

/-- The first bytes, the newest of the others, and how many are in neither. -/
def summary (maxBytes : Nat) (stream : Bytes) : HeadTailBuffer where
  head := stream.take (headBudget maxBytes)
  tail := (stream.drop (headBudget maxBytes)).rtake (tailBudget maxBytes)
  omittedBytes := (stream.drop (headBudget maxBytes)).length - tailBudget maxBytes

/-- A buffer whose head is given and whose tail has seen the bytes `rest`. -/
def withRest (maxBytes : Nat) (head rest : Bytes) : HeadTailBuffer where
  head := head
  tail := rest.rtake (tailBudget maxBytes)
  omittedBytes := rest.length - tailBudget maxBytes

theorem summary_eq_withRest (maxBytes : Nat) (stream : Bytes) :
    summary maxBytes stream = withRest maxBytes (stream.take (headBudget maxBytes))
      (stream.drop (headBudget maxBytes)) := rfl

theorem headBudget_le_tailBudget (maxBytes : Nat) : headBudget maxBytes ≤ tailBudget maxBytes := by
  unfold tailBudget headBudget
  omega

theorem length_rtake (count : Nat) (bytes : Bytes) :
    (bytes.rtake count).length = min count bytes.length := by
  rw [List.rtake, length_drop]
  omega

theorem rtake_append_of_le (count : Nat) (first second : Bytes) (enough : count ≤ second.length) :
    (first ++ second).rtake count = second.rtake count := by
  rw [List.rtake, List.rtake, length_append, drop_append, drop_eq_nil_of_le (by omega), nil_append]
  congr 1
  omega

section Push

variable (usizeMax maxBytes : Nat)

theorem saturatingAdd_eq (left right : Nat) (fits : left + right ≤ usizeMax) :
    saturatingAdd usizeMax left right = left + right :=
  Nat.min_eq_left fits

open HeadTailBuffer

theorem pushTail_withRest (head rest chunk : Bytes) (fits : rest.length + chunk.length ≤ usizeMax) :
    (withRest maxBytes head rest).pushTail usizeMax maxBytes chunk =
    withRest maxBytes head (rest ++ chunk) := by
  simp only [pushTail, withRest, mk.injEq, true_and, length_rtake]
  generalize tailBudget maxBytes = budget
  refine ⟨?_, ?_⟩
  · rw [List.rtake, List.rtake, length_append]
    split
    · -- old bytes of the tail make room for the chunk
      rename_i early
      rw [drop_drop, drop_append_of_le_length (by omega)]
      congr 2
      omega
    next late =>
      have gone : rest.drop (rest.length + chunk.length - budget) = [] :=
        drop_eq_nil_of_le (by omega)
      rw [drop_append, gone, nil_append]
      congr 1
      omega
  · rw [saturatingAdd_eq usizeMax _ _ (by omega), length_append]
    omega

theorem fillHead_eq (buffer : HeadTailBuffer) (chunk : Bytes) : buffer.fillHead maxBytes chunk =
      ({ buffer with head := buffer.head ++ chunk.take (headBudget maxBytes - buffer.head.length) },
        chunk.drop (headBudget maxBytes - buffer.head.length)) := by
  simp only [fillHead]
  split
  · rfl
  next short =>
    rw [take_of_length_le (by omega), drop_eq_nil_of_le (by omega)]

theorem pushChunk_summary (stream chunk : Bytes) (fits : (stream ++ chunk).length ≤ usizeMax) :
    (summary maxBytes stream).pushChunk usizeMax maxBytes chunk =
    summary maxBytes (stream ++ chunk) := by
  have left : headBudget maxBytes - (stream.take (headBudget maxBytes)).length =
      headBudget maxBytes - stream.length := by
    rw [length_take]
    omega
  rw [length_append] at fits
  simp only [pushChunk, fillHead_eq]
  rw [summary_eq_withRest maxBytes (stream ++ chunk), take_append, drop_append,
    ← pushTail_withRest usizeMax maxBytes _ _ _ (by simp only [length_drop]; omega)]
  simp only [summary, withRest, left]

variable (stream later : Bytes)

/-- The bytes of a later stream that the head of the earlier one leaves over. -/
def overflowOf : Bytes :=
  (later.take (headBudget maxBytes)).drop (headBudget maxBytes - stream.length)

theorem drop_append_eq_overflow :
    (stream ++ later).drop (headBudget maxBytes) = stream.drop (headBudget maxBytes) ++
    (overflowOf maxBytes stream later ++ later.drop (headBudget maxBytes)) := by
  rw [drop_append]
  refine congrArg _ ?_
  conv_lhs => rw [← take_append_drop (headBudget maxBytes) later, drop_append]
  refine congrArg _ ?_
  rw [drop_drop, length_take]
  by_cases long : headBudget maxBytes ≤ later.length
  · congr 1
    omega
  · rw [drop_eq_nil_of_le (by omega), drop_eq_nil_of_le (by omega)]

theorem takeHead_summary (stream later : Bytes) (omittedBytes : Nat) :
    { summary maxBytes stream with omittedBytes := omittedBytes }.takeHead maxBytes
        (later.take (headBudget maxBytes)) =
      (⟨(stream ++ later).take (headBudget maxBytes),
        (stream.drop (headBudget maxBytes)).rtake (tailBudget maxBytes), omittedBytes⟩,
        overflowOf maxBytes stream later) := by
  have left : headBudget maxBytes - (stream.take (headBudget maxBytes)).length =
      headBudget maxBytes - stream.length := by
    rw [length_take]
    omega
  have head : (stream ++ later).take (headBudget maxBytes) = stream.take (headBudget maxBytes) ++
        (later.take (headBudget maxBytes)).take (headBudget maxBytes - stream.length) := by
    rw [take_append, take_take, Nat.min_eq_left (Nat.sub_le _ _)]
  simp only [takeHead, summary, fillHead_eq, left, head, overflowOf]
  split
  next noHead =>
    have emptyHead := isEmpty_iff.mp noHead
    rw [emptyHead]
    rcases take_eq_nil_iff.mp emptyHead with noBudget | noBytes
    · simp [noBudget]
    · simp [noBytes, take_take]
  · rfl

theorem pushBuffer_summary (firstSlice : Nat) (stream later : Bytes)
    (fits : (stream ++ later).length ≤ usizeMax) :
    (summary maxBytes stream).pushBuffer usizeMax maxBytes firstSlice (summary maxBytes later) =
    summary maxBytes (stream ++ later) := by
  rw [summary_eq_withRest maxBytes (stream ++ later), drop_append_eq_overflow]
  have ordered := headBudget_le_tailBudget maxBytes
  have overflowLength : (overflowOf maxBytes stream later).length =
      min (headBudget maxBytes) later.length - (headBudget maxBytes - stream.length) := by
    rw [overflowOf, length_drop, length_take]
  rw [length_append] at fits
  simp only [pushBuffer]
  rw [show (summary maxBytes later).head = later.take (headBudget maxBytes) from rfl,
    takeHead_summary]
  simp only [summary, length_rtake, length_drop]
  split
  · -- the tail of the later buffer is full, so it displaces everything else
    rename_i full
    rw [withRest, mk.injEq]
    refine ⟨rfl, ?_, ?_⟩
    · rw [← append_assoc, rtake_append_of_le]
      rw [length_drop]
      omega
    · rw [saturatingAdd_eq usizeMax (stream.length - _ - _) _ (by omega),
        saturatingAdd_eq usizeMax _ (min _ _) (by omega), saturatingAdd_eq usizeMax _ _ (by omega)]
      simp only [length_append, length_drop]
      omega
  next notFull =>
    have short : later.length - headBudget maxBytes < tailBudget maxBytes := by omega
    have nothingOmitted : later.length - headBudget maxBytes - tailBudget maxBytes = 0 := by omega
    have whole : (later.drop (headBudget maxBytes)).rtake (tailBudget maxBytes) =
        later.drop (headBudget maxBytes) := by
      rw [List.rtake, length_drop, nothingOmitted, drop_zero]
    have counted : saturatingAdd usizeMax (stream.length - headBudget maxBytes -
        tailBudget maxBytes) (later.length - headBudget maxBytes - tailBudget maxBytes) =
        (stream.drop (headBudget maxBytes)).length - tailBudget maxBytes := by
      rw [nothingOmitted, saturatingAdd_eq usizeMax _ _ (by omega), length_drop, Nat.add_zero]
    have pushed := pushTail_withRest usizeMax maxBytes
      ((stream ++ later).take (headBudget maxBytes)) (stream.drop (headBudget maxBytes))
      (overflowOf maxBytes stream later) (by rw [length_drop]; omega)
    rw [counted, whole]
    rw [withRest] at pushed
    rw [pushed]
    split
    · -- nothing is in the tail yet, so the later tail is taken over
      rename_i noTail
      have emptyTail := congrArg List.length (isEmpty_iff.mp noTail)
      simp only [withRest, length_rtake, length_nil] at emptyTail
      have noRest : stream.drop (headBudget maxBytes) ++ overflowOf maxBytes stream later = [] := by
        rw [← length_eq_zero_iff]
        omega
      rw [← append_assoc, noRest, nil_append]
      simp only [withRest, whole, length_nil, mk.injEq, true_and, length_drop]
      omega
    · rw [pushTail_withRest usizeMax maxBytes, pushTail_withRest usizeMax maxBytes]
      · simp only [append_assoc, take_append_drop]
      · simp only [length_append, length_drop, length_take]
        omega
      · simp only [length_append, length_drop, length_take]
        omega

end Push

/-- How a buffer comes about: chunks are pushed, and buffers of later parts of the
output are appended, which have been assembled in the same way. -/
inductive Assembly where
  | empty
  | pushChunk (built : Assembly) (chunk : Bytes)
  | pushBuffer (built later : Assembly) (firstSlice : Nat)
deriving DecidableEq, Repr

namespace Assembly

def stream : Assembly → Bytes
  | empty => []
  | pushChunk built chunk => built.stream ++ chunk
  | pushBuffer built later _ => built.stream ++ later.stream

def buffer (usizeMax maxBytes : Nat) : Assembly → HeadTailBuffer
  | empty => .empty
  | pushChunk built chunk => (built.buffer usizeMax maxBytes).pushChunk usizeMax maxBytes chunk
  | pushBuffer built later firstSlice =>
    (built.buffer usizeMax maxBytes).pushBuffer usizeMax maxBytes firstSlice
      (later.buffer usizeMax maxBytes)

end Assembly

open Assembly

theorem assembled_buffer_is_summary (usizeMax maxBytes : Nat) (assembly : Assembly)
    (fits : assembly.stream.length < usizeMax) :
    assembly.buffer usizeMax maxBytes = summary maxBytes assembly.stream := by
  induction assembly with
  | empty => simp [buffer, stream, summary, HeadTailBuffer.empty]
  | pushChunk built chunk ih =>
    rw [stream, length_append] at fits
    rw [buffer, stream, ih (by omega), pushChunk_summary]
    rw [length_append]
    omega
  | pushBuffer built later firstSlice ihBuilt ihLater =>
    rw [stream, length_append] at fits
    rw [buffer, stream, ihBuilt (by omega), ihLater (by omega),
      pushBuffer_summary]
    rw [length_append]
    omega

theorem assembled_parts_are_summarised :
    (Assembly.pushBuffer (.pushChunk .empty [1, 2, 3])
        (.pushBuffer (.pushChunk .empty [4, 5]) (.pushChunk .empty [6, 7]) 1) 1).buffer 100 5 =
      ⟨[1, 2], [5, 6, 7], 2⟩ :=
  assembled_buffer_is_summary 100 5 (.pushBuffer (.pushChunk .empty [1, 2, 3])
    (.pushBuffer (.pushChunk .empty [4, 5]) (.pushChunk .empty [6, 7]) 1) 1) (by decide)

end CodexFormal.UnifiedExec
