import Mathlib.Data.List.Sort

/-!
# Families that keep their newest members

Members are ordered by a key.  A new member is sorted in and the oldest ones are
evicted until the rest fits.  What fits is given by a predicate that every
sublist inherits.  The members that one eviction of the whole family keeps are
kept in every order of recording, and no others are kept exactly when none of
those it evicts fits beside them.
-/

set_option autoImplicit false

namespace CodexFormal.Foundation.BoundedFamily

open List

universe u v

variable {α : Type u} {κ : Type v} [LinearOrder κ] (key : α → κ) (fits : List α → Bool)
  (items : List α)

def Ascending : Prop :=
  items.Pairwise fun first second => key first < key second

def sortByKey : List α :=
  items.insertionSort fun first second => key first ≤ key second

def evict : List α → List α
  | [] => []
  | oldest :: rest => if fits (oldest :: rest) then oldest :: rest else evict rest

def record (item : α) : List α :=
  evict fits (sortByKey key (items ++ [item]))

def recordAll (items recorded : List α) : List α :=
  recorded.foldl (record key fits) items

/-- A part of what fits also fits. -/
def Inherited : Prop :=
  ∀ smaller larger : List α, smaller.Sublist larger → fits larger = true → fits smaller = true

section Ascending

variable {key} {items : List α}

theorem Ascending.nodup (sorted : Ascending key items) : items.Nodup :=
  sorted.imp fun smaller same => absurd smaller (by rw [same]; exact lt_irrefl _)

theorem Ascending.sublist {smaller larger : List α} (sorted : Ascending key larger)
    (sublist : smaller.Sublist larger) : Ascending key smaller :=
  List.Pairwise.sublist sublist sorted

theorem Ascending.sublist_of_subset {smaller larger : List α}
    (smallerAscending : Ascending key smaller) (largerAscending : Ascending key larger)
    (subset : smaller ⊆ larger) : smaller.Sublist larger := by
  have : Std.Antisymm fun first second : α => key first < key second :=
    ⟨fun _ _ less greater => absurd greater (lt_asymm less)⟩
  exact sublist_of_subperm_of_pairwise
    (subperm_of_subset smallerAscending.nodup subset) smallerAscending largerAscending

theorem Ascending.eq_of_mem_iff {first second : List α} (firstAscending : Ascending key first)
    (secondAscending : Ascending key second) (same : ∀ item, item ∈ first ↔ item ∈ second) :
    first = second :=
  (firstAscending.sublist_of_subset secondAscending fun item => (same item).mp).antisymm
    (secondAscending.sublist_of_subset firstAscending fun item => (same item).mpr)

theorem ascending_sortByKey (distinct : (items.map key).Nodup) :
    Ascending key (sortByKey key items) := by
  have : Std.Total fun first second : α => key first ≤ key second :=
    ⟨fun first second => le_total (key first) (key second)⟩
  have : IsTrans α fun first second : α => key first ≤ key second :=
    ⟨fun _ _ _ => le_trans⟩
  have sorted := pairwise_insertionSort (fun first second : α => key first ≤ key second) items
  have keys : ((sortByKey key items).map key).Nodup :=
    ((perm_insertionSort _ items).map key).nodup_iff.mpr distinct
  have unequal := pairwise_map.mp keys
  exact (sorted.and unequal).imp fun both => lt_of_le_of_ne both.1 both.2

theorem sortByKey_ascending (sorted : Ascending key items) : sortByKey key items = items :=
  List.Pairwise.insertionSort_eq (sorted.imp le_of_lt)

theorem sortByKey_append_oldest {item : α} {items : List α}
    (sorted : Ascending key (item :: items)) : sortByKey key (items ++ [item]) = item :: items := by
  have keys : ((items ++ [item]).map key).Nodup := by
    have distinct : ((item :: items).map key).Nodup :=
      pairwise_map.mpr (sorted.imp ne_of_lt)
    exact (((perm_append_singleton item items).map key).nodup_iff).mpr distinct
  refine (ascending_sortByKey keys).eq_of_mem_iff sorted fun other => ?_
  exact ((perm_insertionSort _ _).trans (perm_append_singleton item items)).mem_iff

end Ascending

theorem mem_sortByKey (items : List α) (item : α) : item ∈ sortByKey key items ↔ item ∈ items :=
  mem_insertionSort _

section Eviction

variable {fits}

theorem evict_suffix (items : List α) : evict fits items <:+ items := by
  induction items with
  | nil => exact suffix_rfl
  | cons oldest rest ih =>
    unfold evict
    split
    · exact suffix_rfl
    · exact ih.trans (suffix_cons oldest rest)

theorem evict_of_fits {items : List α} (fit : fits items = true) : evict fits items = items := by
  cases items with
  | nil => rfl
  | cons oldest rest => rw [evict, if_pos fit]

theorem evict_of_not_fits {oldest : α} {rest : List α} (tooLarge : fits (oldest :: rest) = false) :
    evict fits (oldest :: rest) = evict fits rest := by
  rw [evict, if_neg (by simp [tooLarge])]

theorem fits_evict (empty : fits [] = true) (items : List α) : fits (evict fits items) = true := by
  induction items with
  | nil => exact empty
  | cons oldest rest ih =>
    unfold evict
    split
    · assumption
    · exact ih

theorem evict_cases (fits : List α → Bool) (items : List α) :
    evict fits items = items ∨ ∃ earlier newest, items = earlier ++ newest :: evict fits items ∧
    fits (newest :: evict fits items) = false := by
  induction items with
  | nil => exact .inl rfl
  | cons oldest rest ih =>
    cases fit : fits (oldest :: rest) with
    | true => exact .inl (evict_of_fits fit)
    | false =>
      rw [evict_of_not_fits fit]
      rcases ih with whole | ⟨earlier, newest, parts, tooLarge⟩
      · exact .inr ⟨[], oldest, by rw [whole]; rfl, by rw [whole]; exact fit⟩
      · exact .inr ⟨oldest :: earlier, newest, congrArg (oldest :: ·) parts, tooLarge⟩

variable (inherited : Inherited fits)

include inherited

theorem mem_evict_of_sublist {smaller larger : List α} (nodup : larger.Nodup)
    (sublist : smaller.Sublist larger) (item : α) (mem : item ∈ smaller)
    (kept : item ∈ evict fits larger) : item ∈ evict fits smaller := by
  induction sublist with
  | slnil => exact kept
  | @cons small large oldest sublist ih =>
    cases fit : fits (oldest :: large) with
    | true =>
      rw [evict_of_fits (inherited _ _ (sublist.cons oldest) fit)]
      exact mem
    | false =>
      rw [evict_of_not_fits fit] at kept
      exact ih nodup.of_cons mem kept
  | @cons_cons small large oldest sublist ih =>
    cases fit : fits (oldest :: large) with
    | true =>
      rw [evict_of_fits (inherited _ _ (sublist.cons_cons oldest) fit)]
      exact mem
    | false =>
      rw [evict_of_not_fits fit] at kept
      -- The oldest member is evicted from the larger family.
      have other : item ≠ oldest := by
        rintro rfl
        exact (nodup_cons.mp nodup).1 ((evict_suffix large).subset kept)
      have keptSmall := ih nodup.of_cons ((mem_cons.mp mem).resolve_left other) kept
      cases smallFit : fits (oldest :: small) with
      | true =>
        rw [evict_of_fits smallFit]
        exact mem
      | false =>
        rw [evict_of_not_fits smallFit]
        exact keptSmall

theorem evict_append_of_not_fits (earlier : List α) (oldest : α) (rest : List α)
    (tooLarge : fits (oldest :: rest) = false) (fit : fits rest = true) :
    evict fits (earlier ++ oldest :: rest) = rest := by
  induction earlier with
  | nil => rw [nil_append, evict_of_not_fits tooLarge, evict_of_fits fit]
  | cons head tail ih =>
    have headTooLarge : fits (head :: (tail ++ oldest :: rest)) = false := by
      by_contra fitsAll
      have small : (oldest :: rest).Sublist (head :: (tail ++ oldest :: rest)) :=
        (sublist_append_right tail (oldest :: rest)).cons head
      rw [inherited _ _ small (by simpa using fitsAll)] at tooLarge
      cases tooLarge
    rw [cons_append, evict_of_not_fits headTooLarge, ih]

end Eviction

theorem mem_of_mem_record (items : List α) (item other : α)
    (mem : other ∈ record key fits items item) : other ∈ items ∨ other = item := by
  have sorted := (mem_sortByKey key _ other).mp ((evict_suffix _).subset mem)
  exact (mem_append.mp sorted).imp_right mem_singleton.mp

/-- What stands of the members recorded so far when the family is bounded at each step. -/
structure Bounded (family recorded items : List α) : Prop where
  sublist : items.Sublist (sortByKey key family)
  subset : items ⊆ recorded
  newest : ∀ item ∈ evict fits (sortByKey key family), item ∈ recorded → item ∈ items

section Recording

variable {key fits} {family : List α} (inherited : Inherited fits) (uniq : (family.map key).Nodup)

include inherited uniq

theorem Bounded.record {noted items : List α} (item : α)
    (bounded : Bounded key fits family noted items) (mem : item ∈ family) (fresh : item ∉ noted) :
    Bounded key fits family (noted ++ [item]) (record key fits items item) := by
  have familySorted := ascending_sortByKey uniq
  have itemsAscending := familySorted.sublist bounded.sublist
  have inFamily : ∀ other ∈ items ++ [item], other ∈ family := by
    intro other inBoth
    rcases mem_append.mp inBoth with inItems | same
    · exact (mem_sortByKey key family other).mp (bounded.sublist.subset inItems)
    · cases mem_singleton.mp same
      exact mem
  have keys : ((items ++ [item]).map key).Nodup := by
    refine List.Nodup.map_on (fun first firstIn second secondIn same => ?_) ?_
    · exact inj_on_of_nodup_map uniq (inFamily first firstIn) (inFamily second secondIn) same
    · rw [nodup_append]
      refine ⟨itemsAscending.nodup, nodup_singleton item, fun other inItems same isItem => ?_⟩
      cases mem_singleton.mp isItem
      rintro rfl
      exact fresh (bounded.subset inItems)
  have sublist : (sortByKey key (items ++ [item])).Sublist (sortByKey key family) := by
    refine (ascending_sortByKey keys).sublist_of_subset familySorted fun other inSorted => ?_
    exact (mem_sortByKey key family other).mpr
      (inFamily other ((mem_sortByKey key _ other).mp inSorted))
  refine ⟨(evict_suffix _).sublist.trans sublist, fun other kept => ?_,
    fun other newest inRecorded => ?_⟩
  · have inSorted := (mem_sortByKey key _ other).mp ((evict_suffix _).subset kept)
    rcases mem_append.mp inSorted with inItems | same
    · exact mem_append_left _ (bounded.subset inItems)
    · exact mem_append_right _ same
  · refine mem_evict_of_sublist inherited familySorted.nodup sublist other ?_ newest
    rw [mem_sortByKey]
    rcases mem_append.mp inRecorded with earlier | same
    · exact mem_append_left _ (bounded.newest other newest earlier)
    · exact mem_append_right _ same

theorem Bounded.recordAll {recorded items : List α} (order : List α)
    (bounded : Bounded key fits family recorded items) (members : order ⊆ family)
    (fresh : (recorded ++ order).Nodup) :
    Bounded key fits family (recorded ++ order) (recordAll key fits items order) := by
  induction order generalizing recorded items with
  | nil =>
    rw [append_nil]
    exact bounded
  | cons item rest ih =>
    have itemFresh : item ∉ recorded := by
      intro already
      exact (nodup_append.mp fresh).2.2 item already item mem_cons_self rfl
    have step := bounded.record inherited uniq item (members mem_cons_self) itemFresh
    have split : recorded ++ item :: rest = recorded ++ [item] ++ rest := by simp
    rw [split] at fresh ⊢
    exact ih step (fun other inRest => members (mem_cons_of_mem item inRest)) fresh

theorem bounded_recordAll (order : List α) (perm : order.Perm family) :
    Bounded key fits family order (recordAll key fits [] order) := by
  have start : Bounded key fits family [] [] :=
    ⟨nil_sublist _, List.Subset.refl _, fun _ _ gone => gone⟩
  have nodup : order.Nodup := perm.nodup_iff.mpr (List.Nodup.of_map key uniq)
  exact start.recordAll inherited uniq order perm.subset nodup

omit inherited uniq in
theorem fits_recordAll (empty : fits [] = true) (items order : List α)
    (fit : fits items = true) : fits (recordAll key fits items order) = true := by
  induction order generalizing items with
  | nil => exact fit
  | cons item rest ih => exact ih _ (fits_evict empty _)

/-- When no evicted member fits beside the rest, every order of recording keeps the same. -/
theorem recordAll_eq_evict (empty : fits [] = true) (order : List α) (perm : order.Perm family)
    (full : ∀ item ∈ family, item ∉ evict fits (sortByKey key family) →
    fits (item :: evict fits (sortByKey key family)) = false) :
    recordAll key fits [] order = evict fits (sortByKey key family) := by
  have bounded := bounded_recordAll inherited uniq order perm
  have familySorted := ascending_sortByKey uniq
  have keptAscending := familySorted.sublist bounded.sublist
  have newestSuffix : evict fits (sortByKey key family) <:+ sortByKey key family :=
    evict_suffix _
  have newestAscending := familySorted.sublist newestSuffix.sublist
  have keepsNewest : ∀ item ∈ evict fits (sortByKey key family),
      item ∈ recordAll key fits [] order := by
    intro item newest
    refine bounded.newest item newest (perm.mem_iff.mpr ?_)
    exact (mem_sortByKey key family item).mp (newestSuffix.subset newest)
  refine keptAscending.eq_of_mem_iff newestAscending fun item => ⟨fun kept => ?_, keepsNewest item⟩
  by_contra evicted
  have inFamily : item ∈ sortByKey key family := bounded.sublist.subset kept
  obtain ⟨earlier, parts⟩ := newestSuffix
  -- The member comes before the newest ones, so both stand together in what is kept.
  have inEarlier : item ∈ earlier := by
    rw [← parts] at inFamily
    exact (mem_append.mp inFamily).resolve_right evicted
  have together : (item :: evict fits (sortByKey key family)).Sublist (sortByKey key family) := by
    have joined := (singleton_sublist.mpr inEarlier).append
      (List.Sublist.refl (evict fits (sortByKey key family)))
    rw [parts] at joined
    exact joined
  have inKept := (familySorted.sublist together).sublist_of_subset keptAscending
    (cons_subset.mpr ⟨kept, keepsNewest⟩)
  have fit := inherited _ _ inKept (fits_recordAll empty [] order empty)
  rw [full item ((mem_sortByKey key family item).mp (bounded.sublist.subset kept)) evicted] at fit
  cases fit

omit uniq in
theorem evict_evict_append (items : List α) (item : α) :
    evict fits (evict fits items ++ [item]) = evict fits (items ++ [item]) := by
  induction items with
  | nil => rfl
  | cons oldest rest ih =>
    cases fit : fits (oldest :: rest) with
    | true => rw [evict_of_fits fit]
    | false =>
      have tooLarge : fits (oldest :: (rest ++ [item])) = false := by
        by_contra fitsAll
        have small : (oldest :: rest).Sublist (oldest :: (rest ++ [item])) :=
          (sublist_append_left rest [item]).cons_cons oldest
        rw [inherited _ _ small (by simpa using fitsAll)] at fit
        cases fit
      rw [evict_of_not_fits fit, ih, cons_append, evict_of_not_fits tooLarge]

omit uniq in
theorem recordAll_ascending (noted order : List α) (sorted : Ascending key (noted ++ order)) :
    recordAll key fits (evict fits noted) order = evict fits (noted ++ order) := by
  induction order generalizing noted with
  | nil =>
    rw [append_nil]
    rfl
  | cons item rest ih =>
    have split : noted ++ item :: rest = noted ++ [item] ++ rest := by simp
    rw [split] at sorted ⊢
    have withItem : Ascending key (evict fits noted ++ [item]) :=
      sorted.sublist (((evict_suffix noted).sublist.append
        (List.Sublist.refl [item])).trans (sublist_append_left _ rest))
    have step : record key fits (evict fits noted) item = evict fits (noted ++ [item]) := by
      rw [record, sortByKey_ascending withItem, evict_evict_append inherited]
    rw [← ih (noted ++ [item]) sorted, ← step]
    rfl

/-- An evicted member that fits beside the rest survives when it is recorded last, while a
newer one does not. -/
theorem exists_late_survivor (item : α) (mem : item ∈ family)
    (out : item ∉ evict fits (sortByKey key family))
    (fit : fits (item :: evict fits (sortByKey key family)) = true) : ∃ order, order.Perm family ∧
    recordAll key fits [] order = item :: evict fits (sortByKey key family) ∧
    ∃ newer ∈ family, key item < key newer ∧ newer ∉ item :: evict fits (sortByKey key family) := by
  have ascending := ascending_sortByKey uniq
  have inSorted := (mem_sortByKey key family item).mpr mem
  rcases evict_cases fits (sortByKey key family) with whole | ⟨earlier, newest, parts, tooLarge⟩
  · rw [whole] at out
    exact absurd inSorted out
  · generalize evict fits (sortByKey key family) = kept at *
    have other : item ≠ newest := by
      rintro rfl
      rw [fit] at tooLarge
      cases tooLarge
    have inEarlier : item ∈ earlier := by
      rw [parts] at inSorted
      rcases mem_append.mp inSorted with inEarlier | later
      · exact inEarlier
      · rcases mem_cons.mp later with same | inKept
        · exact absurd same other
        · exact absurd inKept out
    obtain ⟨pre, after, rfl⟩ := append_of_mem inEarlier
    have sorted : (sortByKey key family).Perm family := perm_insertionSort _ family
    rw [parts] at ascending sorted
    have keptFits := inherited kept (item :: kept) (sublist_cons_self item kept) fit
    have more : (pre ++ after ++ newest :: kept).Sublist
        (pre ++ item :: after ++ newest :: kept) :=
      ((List.Sublist.refl pre).append (sublist_cons_self item after)).append (List.Sublist.refl _)
    have withItem : (item :: newest :: kept).Sublist (pre ++ item :: after ++ newest :: kept) :=
      (singleton_sublist.mpr inEarlier).append (List.Sublist.refl (newest :: kept))
    refine ⟨pre ++ after ++ newest :: kept ++ [item], ?_, ?_, newest, ?_, ?_, ?_⟩
    · refine List.Perm.trans ?_ sorted
      refine (perm_append_singleton item _).trans ?_
      rw [append_assoc, append_assoc, cons_append]
      exact perm_middle.symm
    · have noted : recordAll key fits [] (pre ++ after ++ newest :: kept) = kept :=
        (recordAll_ascending inherited [] (pre ++ after ++ newest :: kept)
          (ascending.sublist more)).trans
          (evict_append_of_not_fits inherited _ newest kept tooLarge keptFits)
      have last : recordAll key fits [] (pre ++ after ++ newest :: kept ++ [item]) =
          record key fits kept item := by
        rw [recordAll, foldl_append]
        exact congrArg (fun items => record key fits items item) noted
      rw [last, record, sortByKey_append_oldest (ascending.sublist
        (((sublist_cons_self newest kept).cons_cons item).trans withItem)),
        evict_of_fits fit]
    · refine sorted.mem_iff.mp (mem_append_right _ mem_cons_self)
    · exact (pairwise_cons.mp (ascending.sublist withItem)).1 newest mem_cons_self
    · have nodup := (ascending.sublist withItem).nodup
      rw [nodup_cons, nodup_cons] at nodup
      rintro (_ | ⟨_, inKept⟩)
      · exact other rfl
      · exact nodup.2.1 inKept

/-- All orders of recording keep the same members, and these are the newest ones, exactly when
no member that one eviction of the whole drops would fit beside those it keeps. -/
theorem recordAll_independent_iff (empty : fits [] = true) :
    ((∀ first second : List α, first.Perm family → second.Perm family →
    recordAll key fits [] first = recordAll key fits [] second) ∧
    (∀ order : List α, order.Perm family → ∀ item ∈ family,
    item ∈ recordAll key fits [] order → ∀ newer ∈ family, key item < key newer →
    newer ∈ recordAll key fits [] order)) ↔
    ∀ item ∈ family, item ∉ evict fits (sortByKey key family) →
    fits (item :: evict fits (sortByKey key family)) = false := by
  constructor
  · rintro ⟨_, newestKept⟩ item mem out
    by_contra fit
    obtain ⟨order, perm, res, newer, inFamily, less, gone⟩ :=
      exists_late_survivor inherited uniq item mem out (by simpa using fit)
    refine gone ?_
    rw [← res]
    exact newestKept order perm item mem (by rw [res]; exact mem_cons_self) newer
      inFamily less
  · intro full
    have same := fun order perm =>
      recordAll_eq_evict inherited uniq empty order perm full
    refine ⟨fun first second firstPerm secondPerm =>
      (same first firstPerm).trans (same second secondPerm).symm, ?_⟩
    intro order perm item _ kept newer inFamily less
    rw [same order perm] at kept ⊢
    have sorted := ascending_sortByKey uniq
    obtain ⟨earlier, parts⟩ : evict fits (sortByKey key family) <:+ sortByKey key family :=
      evict_suffix _
    rw [← parts] at sorted
    have inSorted := (mem_sortByKey key family newer).mpr inFamily
    rw [← parts] at inSorted
    rcases mem_append.mp inSorted with older | newest
    · exact absurd less (lt_asymm ((pairwise_append.mp sorted).2.2 newer older item kept))
    · exact newest

end Recording

end CodexFormal.Foundation.BoundedFamily
