import CodexFormal.History.RetainedContext

/-!
# Retained context and the order of persistence

Records are accepted in one order and persisted in another.  What a family
retains is compared over all orders of persistence of the same records.
-/

set_option autoImplicit false

namespace CodexFormal.History

open Foundation List Json Ordered
open Patch (Text)

def acceptedEntry {α : Type} (accepted : α × Nat) : Ordered α :=
  { inherited := false, order := accepted.2, value := accepted.1 }

def recordUserMessages (messages : List (RetainedUserMessage × Nat)) : RetainedContext :=
  messages.foldl (fun context accepted =>
    context.recordUserMessage accepted.1 (.localInput (some accepted.2))) .default

def recordAnswers (answers : List (VerifiedAnswer × Nat)) : RetainedContext :=
  answers.foldl (fun context accepted =>
    (context.record accepted.1 (some accepted.2)).2) .default

def SameMessage (first second : RetainedUserMessage) : Prop :=
  first.messageId.isSome = true ∧ second.messageId = first.messageId

def SameCall (first second : VerifiedAnswer) : Prop :=
  second.turnId = first.turnId ∧ second.callId = first.callId

section Records

variable {α : Type} [Serialize α]

structure DistinctRecords (SameSource : α → α → Prop) (records : List (α × Nat)) : Prop where
  sources : records.Pairwise fun first second => ¬ SameSource first.1 second.1
  orders : (records.map Prod.snd).Nodup
  withinLimit : ∀ accepted ∈ records, recordBytes accepted.1 ≤ maxRecordBytes

/-- The same family and counter for all orders, and only the newest records in the family. -/
def OrderIndependent (recordAll : List (α × Nat) → RetainedContext)
    (family : RetainedContext → List (Ordered α)) (records : List (α × Nat)) : Prop :=
  (∀ first second : List (α × Nat), first.Perm records → second.Perm records →
    family (recordAll first) = family (recordAll second) ∧
      (recordAll first).nextOrder = (recordAll second).nextOrder) ∧
  ∀ order : List (α × Nat), order.Perm records → ∀ kept ∈ records,
    acceptedEntry kept ∈ family (recordAll order) →
      ∀ newer ∈ records, kept.2 < newer.2 → acceptedEntry newer ∈ family (recordAll order)

/-- Bounding all records at once evicts none that the limits would allow beside the rest. -/
def NoEvictedRecordFits (records : List (α × Nat)) : Prop :=
  ∀ accepted ∈ records,
    acceptedEntry accepted ∉ (boundFamily (records.map acceptedEntry) false).1 →
      familyFits (acceptedEntry accepted :: (boundFamily (records.map acceptedEntry) false).1) =
        false

theorem familyFits_iff (items : List (Ordered α)) : familyFits items = true ↔
    items.length ≤ maxFamilyRecords ∧ familyBytes items ≤ maxFamilyBytes := by
  rw [familyFits, Bool.not_eq_true', Bool.or_eq_false_iff, decide_eq_false_iff_not,
    decide_eq_false_iff_not, Nat.not_lt, Nat.not_lt]

theorem familyFits_nil : familyFits ([] : List (Ordered α)) = true :=
  (familyFits_iff []).mpr ⟨Nat.zero_le _, by change 2 ≤ 65536; decide⟩

theorem familyFits_inherited : BoundedFamily.Inherited (familyFits : List (Ordered α) → Bool) := by
  intro smaller larger sublist fit
  obtain ⟨count, bytes⟩ := (familyFits_iff larger).mp fit
  exact (familyFits_iff smaller).mpr ⟨sublist.length_le.trans count,
    (utf8Length_array_le (sublist.map toJson)).trans bytes⟩

structure FamilyRecorder (α : Type) [Serialize α] where
  SameSource : α → α → Prop
  record : RetainedContext → α × Nat → RetainedContext
  family : RetainedContext → List (Ordered α)
  symmetric : ∀ first second, SameSource first second → SameSource second first
  family_default : family .default = []
  record_fresh : ∀ context accepted, recordBytes accepted.1 ≤ maxRecordBytes →
    (∀ entry ∈ family context, ¬ SameSource accepted.1 entry.value) →
    family (record context accepted) =
        BoundedFamily.record Ordered.key familyFits (family context) (acceptedEntry accepted) ∧
      (record context accepted).nextOrder = max context.nextOrder (saturatingSucc accepted.2)

namespace FamilyRecorder

variable (recorder : FamilyRecorder α)

def recordAll (context : RetainedContext) (records : List (α × Nat)) : RetainedContext :=
  records.foldl recorder.record context

theorem recordAll_distinct (ctx : RetainedContext) (earlier records : List (α × Nat))
    (held : ∀ entry ∈ recorder.family ctx, ∃ item ∈ earlier, entry = acceptedEntry item)
    (uniq : DistinctRecords recorder.SameSource (earlier ++ records)) :
    recorder.family (recorder.recordAll ctx records) =
    BoundedFamily.recordAll key familyFits (recorder.family ctx)
    (records.map acceptedEntry) ∧ (recorder.recordAll ctx records).nextOrder =
    (records.map fun item => saturatingSucc item.2).foldl max ctx.nextOrder := by
  induction records generalizing ctx earlier with
  | nil => exact ⟨rfl, rfl⟩
  | cons item rest ih =>
    have fresh : ∀ entry ∈ recorder.family ctx, ¬ recorder.SameSource item.1 entry.value := by
      intro entry mem same
      obtain ⟨other, inEarlier, rfl⟩ := held entry mem
      exact (pairwise_append.mp uniq.sources).2.2 other inEarlier item
        mem_cons_self (recorder.symmetric _ _ same)
    obtain ⟨family, nextOrder⟩ := recorder.record_fresh ctx item
      (uniq.withinLimit item (mem_append_right _ mem_cons_self)) fresh
    have split : earlier ++ item :: rest = earlier ++ [item] ++ rest := by simp
    have stillHeld : ∀ entry ∈ recorder.family (recorder.record ctx item),
        ∃ other ∈ earlier ++ [item], entry = acceptedEntry other := by
      intro entry mem
      rw [family] at mem
      rcases BoundedFamily.mem_of_mem_record key familyFits _ _ _ mem with
        pre | rfl
      · obtain ⟨other, inEarlier, same⟩ := held entry pre
        exact ⟨other, mem_append_left _ inEarlier, same⟩
      · exact ⟨item, mem_append_right _ (mem_singleton.mpr rfl), rfl⟩
    rw [split] at uniq
    obtain ⟨restFamily, restOrder⟩ := ih _ (earlier ++ [item]) stillHeld uniq
    rw [family] at restFamily
    rw [nextOrder] at restOrder
    exact ⟨restFamily, restOrder⟩

variable (records : List (α × Nat))

theorem recordAll_default (uniq : DistinctRecords recorder.SameSource records) :
    recorder.family (recorder.recordAll .default records) =
    BoundedFamily.recordAll key familyFits [] (records.map acceptedEntry) ∧
    (recorder.recordAll .default records).nextOrder =
    (records.map fun item => saturatingSucc item.2).foldl max 0 := by
  have noted := recorder.recordAll_distinct .default [] records
    (by rw [recorder.family_default]; exact fun _ gone => absurd gone (not_mem_nil))
    uniq
  rw [recorder.family_default] at noted
  exact noted

theorem distinct_keys {records : List (α × Nat)}
    (uniq : DistinctRecords recorder.SameSource records) :
    ((records.map acceptedEntry).map key).Nodup := by
  rw [map_map]
  refine List.Nodup.map_on (fun first firstIn second secondIn same => ?_)
    (List.Nodup.of_map Prod.snd uniq.orders)
  refine inj_on_of_nodup_map uniq.orders firstIn secondIn ?_
  exact congrArg (fun order => (ofLex order).2) same

omit [Serialize α] in
theorem key_lt_iff (first second : α × Nat) :
    (acceptedEntry first).key < (acceptedEntry second).key ↔ first.2 < second.2 := by
  simp [key, acceptedEntry, Prod.Lex.lt_iff]

theorem distinct_perm {records order : List (α × Nat)}
    (uniq : DistinctRecords recorder.SameSource records) (perm : order.Perm records) :
    DistinctRecords recorder.SameSource order where
  sources := (perm.pairwise_iff fun apart same => apart (recorder.symmetric _ _ same)).mpr
    uniq.sources
  orders := (perm.map Prod.snd).nodup_iff.mpr uniq.orders
  withinLimit := fun item mem => uniq.withinLimit item (perm.mem_iff.mp mem)

variable {records} in
omit [Serialize α] in
theorem exists_record_order {order : List (Ordered α)}
    (perm : order.Perm (records.map acceptedEntry)) :
    ∃ items : List (α × Nat), items.Perm records ∧ order = items.map acceptedEntry := by
  have read := perm.map fun entry => (entry.value, entry.order)
  rw [map_map] at read
  refine ⟨_, read.trans (List.Perm.of_eq (map_id records)), ?_⟩
  rw [map_map]
  refine (map_id order).symm.trans (map_congr_left fun entry mem => ?_)
  obtain ⟨item, _, rfl⟩ := mem_map.mp (perm.mem_iff.mp mem)
  rfl

theorem orderIndependent_iff (uniq : DistinctRecords recorder.SameSource records) :
    OrderIndependent (recorder.recordAll .default) recorder.family records ↔
    NoEvictedRecordFits records := by
  have noted := fun (order : List (α × Nat)) (perm : order.Perm records) =>
    recorder.recordAll_default order (recorder.distinct_perm uniq perm)
  have bounded := BoundedFamily.recordAll_independent_iff familyFits_inherited
    (recorder.distinct_keys uniq) familyFits_nil
  have fitting := bounded.trans forall_mem_map
  refine Iff.trans ?_ fitting
  constructor
  · rintro ⟨same, newest⟩
    refine ⟨fun first second firstPerm secondPerm => ?_, fun order perm => ?_⟩
    · obtain ⟨firstRecords, firstRecordsPerm, rfl⟩ := exists_record_order firstPerm
      obtain ⟨secondRecords, secondRecordsPerm, rfl⟩ :=
        exists_record_order secondPerm
      rw [← (noted firstRecords firstRecordsPerm).1, ← (noted secondRecords secondRecordsPerm).1]
      exact (same firstRecords secondRecords firstRecordsPerm secondRecordsPerm).1
    · obtain ⟨items, acceptedPerm, rfl⟩ := exists_record_order perm
      rw [forall_mem_map, ← (noted items acceptedPerm).1]
      intro kept keptIn isKept
      rw [forall_mem_map]
      intro newer newerIn less
      exact newest items acceptedPerm kept keptIn isKept newer newerIn
        ((key_lt_iff kept newer).mp less)
  · rintro ⟨same, newest⟩
    refine ⟨fun first second firstPerm secondPerm => ⟨?_, ?_⟩, fun order perm => ?_⟩
    · rw [(noted first firstPerm).1, (noted second secondPerm).1]
      exact same _ _ (firstPerm.map acceptedEntry) (secondPerm.map acceptedEntry)
    · rw [(noted first firstPerm).2, (noted second secondPerm).2]
      exact ((firstPerm.trans secondPerm.symm).map _).foldl_eq 0
    · intro kept keptIn isKept newer newerIn less
      rw [(noted order perm).1] at isKept ⊢
      exact newest _ (perm.map acceptedEntry) (acceptedEntry kept)
        (mem_map_of_mem keptIn) isKept (acceptedEntry newer) (mem_map_of_mem newerIn)
        ((key_lt_iff kept newer).mpr less)

end FamilyRecorder

end Records

open RetainedContext

theorem recordUserMessage_fresh (ctx : RetainedContext)
    (item : RetainedUserMessage × Nat) (within : recordBytes item.1 ≤ maxRecordBytes)
    (fresh : ∀ entry ∈ ctx.userMessages, ¬ SameMessage item.1 entry.value) :
    (ctx.recordUserMessage item.1 (.localInput (some item.2))).userMessages =
    BoundedFamily.record key familyFits ctx.userMessages (acceptedEntry item) ∧
    (ctx.recordUserMessage item.1 (.localInput (some item.2))).nextOrder =
    max ctx.nextOrder (saturatingSucc item.2) := by
  have unbounded : item.1.bound = item.1 := if_neg (Nat.not_lt.mpr within)
  have gone : ctx.userMessages.find? (isSameMessage item.1) = none := by
    refine find?_eq_none.mpr fun entry mem same => fresh entry mem ?_
    simpa [isSameMessage, SameMessage] using same
  simp only [recordUserMessage, unbounded, gone]
  exact ⟨rfl, rfl⟩

theorem record_fresh (ctx : RetainedContext)
    (item : VerifiedAnswer × Nat) (within : recordBytes item.1 ≤ maxRecordBytes)
    (fresh : ∀ entry ∈ ctx.verifiedAnswers, ¬ SameCall item.1 entry.value) :
    (ctx.record item.1 (some item.2)).2.verifiedAnswers =
    BoundedFamily.record key familyFits ctx.verifiedAnswers
    (acceptedEntry item) ∧ (ctx.record item.1 (some item.2)).2.nextOrder =
    max ctx.nextOrder (saturatingSucc item.2) := by
  have unbounded : item.1.bound = item.1 := if_neg (Nat.not_lt.mpr within)
  have gone : ctx.verifiedAnswers.find? (isSameSource item.1) = none := by
    refine find?_eq_none.mpr fun entry mem same => fresh entry mem ?_
    simpa [isSameSource, SameCall] using same
  simp only [record, unbounded, gone]
  exact ⟨rfl, rfl⟩

def userMessageRecorder : FamilyRecorder RetainedUserMessage where
  SameSource := SameMessage
  record context accepted := context.recordUserMessage accepted.1 (.localInput (some accepted.2))
  family := RetainedContext.userMessages
  symmetric := fun _ _ same => ⟨by rw [same.2]; exact same.1, same.2.symm⟩
  family_default := rfl
  record_fresh := recordUserMessage_fresh

def answerRecorder : FamilyRecorder VerifiedAnswer where
  SameSource := SameCall
  record context accepted := (context.record accepted.1 (some accepted.2)).2
  family := RetainedContext.verifiedAnswers
  symmetric := fun _ _ same => ⟨same.1.symm, same.2.symm⟩
  family_default := rfl
  record_fresh := record_fresh

def sampleMessage (order length : Nat) : RetainedUserMessage × Nat :=
  ({ turnId := ['t'], messageId := some (List.replicate order 'm'),
     text := List.replicate length 'x', complete := true }, order)

theorem sample_partBytes : utf8Length (string "turn_id".toList) = 9 ∧
    utf8Length (string ['t']) = 3 ∧ utf8Length (string "message_id".toList) = 12 ∧
    utf8Length (string "text".toList) = 6 ∧
    utf8Length (string "complete".toList) = 10 ∧ utf8Length (bool true) = 4 ∧
    utf8Length (string "order".toList) = 7 := by
  decide

variable (order length : Nat)

theorem recordBytes_sampleMessage :
    recordBytes (sampleMessage order length).1 = order + length + 57 := by
  have id := Json.utf8Length_string_replicate order 'm' (by decide) (by decide)
  have text := Json.utf8Length_string_replicate length 'x' (by decide) (by decide)
  obtain ⟨turnName, turn, idName, textName, completeName, complete, _⟩ := sample_partBytes
  simp only [recordBytes, Serialize.members, sampleMessage, Json.optional, Json.utf8Length_object,
    map_cons, map_nil, sum_cons, sum_nil, id, text, turnName, turn, idName,
    textName, completeName, complete]
  omega

theorem entryBytes_sampleMessage (digit : order < 10) :
    Json.utf8Length (acceptedEntry (sampleMessage order length)).toJson = order + length + 67 := by
  have id := Json.utf8Length_string_replicate order 'm' (by decide) (by decide)
  have text := Json.utf8Length_string_replicate length 'x' (by decide) (by decide)
  have digits : ∀ num : Fin 10, Json.utf8Length (Json.nat num) = 1 := by decide
  have num : Json.utf8Length (Json.nat order) = 1 := digits ⟨order, digit⟩
  obtain ⟨turnName, turn, idName, textName, completeName, complete, orderName⟩ := sample_partBytes
  simp only [toJson, acceptedEntry, Serialize.members, sampleMessage, Json.optional,
    Json.utf8Length_object, map_cons, map_nil, sum_cons, sum_nil,
    Bool.false_eq_true, if_false, nil_append, id, text, turnName, turn, idName, textName,
    completeName, complete, orderName, num]
  omega

def sampleMessages (sizes : List (Nat × Nat)) : List (RetainedUserMessage × Nat) :=
  sizes.map fun size => sampleMessage size.1 size.2

def sampleFits (sizes : List (Nat × Nat)) : Bool :=
  decide (sizes.length ≤ maxFamilyRecords) &&
    decide ((sizes.map fun size => size.1 + size.2 + 68).sum - 1 + 2 ≤ maxFamilyBytes)

variable (sizes : List (Nat × Nat))

theorem familyFits_sampleMessages (digits : ∀ size ∈ sizes, size.1 < 10) :
    familyFits ((sampleMessages sizes).map acceptedEntry) = sampleFits sizes := by
  have bytes : familyBytes ((sampleMessages sizes).map acceptedEntry) =
      (sizes.map fun size => size.1 + size.2 + 68).sum - 1 + 2 := by
    have parts : (((sampleMessages sizes).map acceptedEntry).map toJson).map
        (fun part => utf8Length part + 1) = sizes.map fun size => size.1 + size.2 + 68 := by
      rw [sampleMessages, map_map, map_map, map_map]
      refine map_congr_left fun size mem => ?_
      simp [entryBytes_sampleMessage size.1 size.2 (digits size mem)]
    rw [familyBytes, utf8Length_array, parts]
  rw [Bool.eq_iff_iff, familyFits_iff, bytes, sampleFits, Bool.and_eq_true, decide_eq_true_iff,
    decide_eq_true_iff, length_map, sampleMessages, length_map]

theorem evict_sampleMessages (digits : ∀ size ∈ sizes, size.1 < 10) :
    BoundedFamily.evict familyFits ((sampleMessages sizes).map acceptedEntry) =
    (sampleMessages (BoundedFamily.evict sampleFits sizes)).map acceptedEntry := by
  induction sizes with
  | nil => rfl
  | cons size rest ih =>
    have fits := familyFits_sampleMessages (size :: rest) digits
    cases fit : sampleFits (size :: rest) with
    | true =>
      rw [BoundedFamily.evict_of_fits (fits.trans fit), BoundedFamily.evict_of_fits fit]
    | false =>
      rw [BoundedFamily.evict_of_not_fits fit,
        ← ih fun other mem => digits other (mem_cons_of_mem size mem)]
      exact BoundedFamily.evict_of_not_fits (fits.trans fit)

section

variable (sorted : sizes.Pairwise fun first second => first.1 < second.1)

include sorted

theorem ascending_sampleMessages :
    BoundedFamily.Ascending key ((sampleMessages sizes).map acceptedEntry) := by
  unfold BoundedFamily.Ascending sampleMessages
  rw [pairwise_map, pairwise_map]
  exact sorted.imp fun less => (FamilyRecorder.key_lt_iff _ _).mpr less

theorem boundFamily_sampleMessages (digits : ∀ size ∈ sizes, size.1 < 10) :
    (boundFamily ((sampleMessages sizes).map acceptedEntry) false).1 =
    (sampleMessages (BoundedFamily.evict sampleFits sizes)).map acceptedEntry := by
  rw [boundFamily, BoundedFamily.sortByKey_ascending (ascending_sampleMessages sizes sorted)]
  exact evict_sampleMessages sizes digits

theorem distinct_sampleMessages (within : ∀ size ∈ sizes, size.1 + size.2 + 57 ≤ maxRecordBytes) :
    DistinctRecords SameMessage (sampleMessages sizes) where
  sources := by
    unfold sampleMessages
    rw [pairwise_map]
    refine sorted.imp fun less same => ?_
    have lengths := congrArg List.length (Option.some.inj same.2)
    rw [length_replicate, length_replicate] at lengths
    omega
  orders := by
    unfold sampleMessages
    rw [map_map]
    exact pairwise_map.mpr (sorted.imp Nat.ne_of_lt)
  withinLimit := by
    intro item mem
    obtain ⟨size, inSizes, rfl⟩ := mem_map.mp mem
    rw [recordBytes_sampleMessage]
    exact within size inSizes

end

theorem mem_sampleMessages (order length : Nat) (mem : acceptedEntry (sampleMessage order length) ∈
    (sampleMessages sizes).map acceptedEntry) : order ∈ sizes.map Prod.fst := by
  obtain ⟨item, inSamples, same⟩ := mem_map.mp mem
  obtain ⟨size, inSizes, rfl⟩ := mem_map.mp inSamples
  exact mem_map.mpr ⟨size, inSizes, congrArg Ordered.order same⟩

/-- What is retained does not depend on the order of persistence, and is the newest part,
exactly when the limits leave no room for a record that bounding all at once evicts. -/
theorem retained_orderIndependent_iff (messages : List (RetainedUserMessage × Nat))
    (answers : List (VerifiedAnswer × Nat))
    (distinctMessages : DistinctRecords SameMessage messages)
    (distinctAnswers : DistinctRecords SameCall answers) :
    (OrderIndependent recordUserMessages RetainedContext.userMessages messages ↔
      NoEvictedRecordFits messages) ∧
    (OrderIndependent recordAnswers RetainedContext.verifiedAnswers answers ↔
      NoEvictedRecordFits answers) :=
  ⟨userMessageRecorder.orderIndependent_iff messages distinctMessages,
    answerRecorder.orderIndependent_iff answers distinctAnswers⟩

/-- Five large messages and an older small one that is persisted late. -/
def lateSizes : List (Nat × Nat) :=
  [(1, 0), (2, 16200), (3, 16200), (4, 16200), (5, 16200), (6, 16200)]

theorem late_message_dependsOnOrder :
    DistinctRecords SameMessage (sampleMessages lateSizes) ∧
      ¬ OrderIndependent recordUserMessages RetainedContext.userMessages
        (sampleMessages lateSizes) := by
  have distinct := distinct_sampleMessages lateSizes (by decide) (by decide)
  refine ⟨distinct, fun independent => ?_⟩
  have kept : BoundedFamily.evict sampleFits lateSizes =
    [(3, 16200), (4, 16200), (5, 16200), (6, 16200)] := by decide
  have full := (userMessageRecorder.orderIndependent_iff _ distinct).mp independent
    (sampleMessage 1 0) (mem_map.mpr ⟨(1, 0), by decide, rfl⟩)
  rw [boundFamily_sampleMessages lateSizes (by decide) (by decide), kept] at full
  have evicted := full fun mem => absurd (mem_sampleMessages _ 1 0 mem) (by decide)
  have fits := familyFits_sampleMessages
    [(1, 0), (3, 16200), (4, 16200), (5, 16200), (6, 16200)] (by decide)
  cases (evicted.symm.trans fits).trans (by decide : sampleFits _ = true)

def largeSizes : List (Nat × Nat) :=
  [(2, 16200), (3, 16200), (4, 16200), (5, 16200), (6, 16200)]

def sampleAnswer : VerifiedAnswer × Nat :=
  ({ turnId := ['t'], callId := ['c'], questions := [⟨['q'], ['a']⟩] }, 4)

theorem large_messages_orderIndependent :
    OrderIndependent recordUserMessages RetainedContext.userMessages (sampleMessages largeSizes) ∧
      OrderIndependent recordAnswers RetainedContext.verifiedAnswers [sampleAnswer] := by
  obtain ⟨messagesIff, answersIff⟩ := retained_orderIndependent_iff (sampleMessages largeSizes)
    [sampleAnswer] (distinct_sampleMessages largeSizes (by decide) (by decide))
    ⟨pairwise_singleton _ _, by decide, by decide⟩
  refine ⟨messagesIff.mpr ?_, answersIff.mpr ?_⟩
  · have kept : BoundedFamily.evict sampleFits largeSizes =
      [(3, 16200), (4, 16200), (5, 16200), (6, 16200)] := by decide
    intro accepted mem evicted
    rw [boundFamily_sampleMessages largeSizes (by decide) (by decide), kept] at evicted ⊢
    obtain ⟨size, inSizes, rfl⟩ := mem_map.mp mem
    rcases mem_cons.mp inSizes with rfl | inKept
    · exact familyFits_sampleMessages largeSizes (by decide)
    · exact absurd (mem_map_of_mem (mem_map_of_mem inKept)) evicted
  · unfold NoEvictedRecordFits
    decide

end CodexFormal.History
