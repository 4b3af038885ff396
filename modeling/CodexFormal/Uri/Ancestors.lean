import CodexFormal.Uri.FileSystemRoot

/-!
# Going up one level

The depth of a path counts its names, while its parent and `..` remove raw segments.
The two agree exactly where no two empty segments in a row stand below the anchor.
-/

set_option autoImplicit false

namespace CodexFormal.Uri

open Patch (Text)
open List
open PercentEncoding (urlLibrary)

namespace FileUrl

/-- No two empty segments follow each other below the anchor. -/
def IsEvenlySpaced (anchorDepth : Nat) (segments : List Text) : Prop :=
  ∀ before, before ++ [[], []] <+: segments → (names before).length ≤ anchorDepth

variable {segments : List Text}

theorem names_append (first second : List Text) :
    names (first ++ second) = names first ++ names second := filter_append ..

theorem pop_concat (initial : List Text) (last : Text) :
    pop (initial ++ [last]) = if initial = [] then [[]] else initial := by
  rw [pop, dropLast_concat]
  cases initial with
  | _ => rfl

theorem names_pop_concat (initial : List Text) (last : Text) :
    names (pop (initial ++ [last])) = names initial := by
  rw [pop_concat]
  split
  next empty =>
    rw [empty]
    rfl
  · rfl

theorem segments_cases (named : names segments ≠ []) :
    ∃ initial last, last ≠ [] ∧ (segments = initial ++ [last] ∨ segments = initial ++ [last, []]) ∧
    popIfEmpty segments = initial ++ [last] ∨
    segments = initial ++ [[], []] ∧ popIfEmpty segments = initial ++ [[]] := by
  rcases eq_nil_or_concat segments with rfl | ⟨initial, last, rfl⟩
  · exact absurd rfl named
  · rw [concat_eq_append] at named ⊢
    cases last with
    | cons c text =>
      exact ⟨initial, c :: text, .inl ⟨by simp, .inl rfl, by simp [popIfEmpty]⟩⟩
    | nil =>
      rcases eq_nil_or_concat initial with rfl | ⟨front, mid, rfl⟩
      · exact absurd rfl named
      · rw [concat_eq_append] at named ⊢
        have popped : popIfEmpty (front ++ [mid] ++ [[]]) = front ++ [mid] := by
          simp [popIfEmpty]
        by_cases empty : mid = []
        · subst empty
          exact ⟨front, [], .inr ⟨by simp, popped⟩⟩
        · exact ⟨front, mid, .inl ⟨empty, .inr (by simp), popped⟩⟩

theorem isEvenlySpaced_pop {anchorDepth : Nat} (long : anchorDepth < (names segments).length) :
    IsEvenlySpaced anchorDepth segments ↔ IsEvenlySpaced anchorDepth (pop (popIfEmpty segments)) ∧
    names (pop (popIfEmpty segments)) = (names segments).dropLast := by
  have named : names segments ≠ [] := by
    intro empty
    rw [empty] at long
    cases long
  obtain ⟨initial, last, ⟨isName, shape, popped⟩ | ⟨rfl, popped⟩⟩ := segments_cases named
  · have sameNames : names segments = names initial ++ [last] := by
      rcases shape with rfl | rfl <;> simp [names, isName]
    rw [popped, names_pop_concat, sameNames, dropLast_concat, pop_concat]
    refine ⟨fun even => ⟨?_, rfl⟩, fun even pre doubled => ?_⟩
    · split
      · intro pre doubled
        have short := doubled.length_le
        simp at short
      · intro pre doubled
        refine even pre (doubled.trans ?_)
        rcases shape with rfl | rfl <;> exact prefix_append ..
    · have isIn : pre ++ [[], []] <+: initial := by
        have notLast : pre ++ [[], []] ≠ initial ++ [last] := by
          intro same
          have tail := congrArg getLast? same
          simp at tail
          exact isName tail
        rcases shape with rfl | rfl
        · exact (prefix_concat_iff.mp doubled).resolve_left notLast
        · have doubled : pre ++ [[], []] <+: initial ++ [last] ++ [[]] := by simpa using doubled
          rcases prefix_concat_iff.mp doubled with same | shorter
          · have front : pre ++ [[]] = initial ++ [last] := by
              simpa using congrArg dropLast same
            have tail := congrArg getLast? front
            simp at tail
            exact absurd tail isName
          · exact (prefix_concat_iff.mp shorter).resolve_left notLast
      refine even.1 pre ?_
      split
      next empty =>
        rw [empty] at isIn
        simp at isIn
      · exact isIn
  · refine ⟨fun even => ?_, fun even => ?_⟩
    · have short := even initial prefix_rfl
      simp [names] at short long
      omega
    · have shorter := even.2
      rw [popped, names_pop_concat, names_append] at shorter
      have lengths := congrArg length shorter
      simp [names] at lengths long
      omega

theorem isEvenlySpaced_of_short {anchorDepth : Nat}
    (short : (names segments).length ≤ anchorDepth) : IsEvenlySpaced anchorDepth segments := by
  intro pre doubled
  have fewer := (((prefix_append pre _).trans doubled).filter (· ≠ [])).length_le
  exact Nat.le_trans fewer short

end FileUrl

namespace PathUri

open FileUrl

theorem lastAncestor_of_top {fuel more : Nat} {uri : PathUri}
    (top : parent (lastAncestor fuel uri) = none) (enough : fuel ≤ more) :
    lastAncestor more uri = lastAncestor fuel uri := by
  induction fuel generalizing uri more with
  | zero =>
    cases more with
    | zero => rfl
    | succ more =>
      have noParent : parent uri = none := top
      simp [lastAncestor, noParent]
  | succ fuel ih =>
    obtain ⟨more, rfl⟩ := Nat.exists_eq_succ_of_ne_zero (by omega : more ≠ 0)
    rw [lastAncestor] at top ⊢
    rw [lastAncestor]
    cases above : parent uri with
    | none => rfl
    | some upper =>
      rw [above] at top
      exact ih top (by omega)

variable {url : FileUrl} {convention : PathConvention}
  (inferred : inferPathConvention (file url) = some convention)

include inferred

theorem parent_of_long
    (long : convention.anchorDepth < url.nonEmptySegments.length) : parent (file url) =
    some (file { url with segments := pop (popIfEmpty url.segments) }) := by
  simp only [parent, inferred, Option.bind_some, if_neg (Nat.not_le.mpr long)]

/-- With one step for each name, the anchor is reached exactly if every step removes a name. -/
theorem parent_lastAncestor_iff (steps : Nat)
    (enough : steps ≤ url.nonEmptySegments.length - convention.anchorDepth) :
    parent (lastAncestor steps (file url)) = none ↔
    url.nonEmptySegments.length ≤ convention.anchorDepth + steps ∧
    IsEvenlySpaced convention.anchorDepth url.segments := by
  induction steps generalizing url with
  | zero =>
    rw [lastAncestor, parent_eq_none_iff inferred]
    exact ⟨fun short => ⟨short, isEvenlySpaced_of_short short⟩, fun both => both.1⟩
  | succ steps ih =>
    have long : convention.anchorDepth < url.nonEmptySegments.length := by omega
    have stillInferred := (parent_step inferred long).1
    rw [lastAncestor, parent_of_long inferred long, isEvenlySpaced_pop long]
    dsimp only
    have popped := names_pop (popIfEmpty url.segments)
    rw [names_popIfEmpty] at popped
    have sameNames : FileUrl.names url.segments = url.nonEmptySegments := rfl
    have upperNames : FileUrl.nonEmptySegments ⟨url.host, pop (popIfEmpty url.segments)⟩ =
      FileUrl.names (pop (popIfEmpty url.segments)) := rfl
    rw [sameNames] at popped ⊢
    rcases popped with same | shorter
    · have notShorter : url.nonEmptySegments ≠ url.nonEmptySegments.dropLast := by
        intro shorter
        have lengths := congrArg length shorter
        rw [length_dropLast] at lengths
        omega
      rw [ih stillInferred (by rw [upperNames, same]; omega), upperNames, same]
      exact iff_of_false (by omega) fun both => notShorter both.2.2
    · rw [ih stillInferred (by rw [upperNames, shorter, length_dropLast]; omega), upperNames,
        shorter, length_dropLast]
      exact ⟨fun both => ⟨by omega, both.2, rfl⟩, fun both => ⟨by omega, both.2.1⟩⟩

theorem parent_rootAncestor : parent (rootAncestor (file url)) = none := by
  obtain ⟨segments, got, reachedInferred, names⟩ := lastAncestor_names
    (url.segments.length + 1) url convention inferred (.inl (Nat.le_succ _))
  rw [rootAncestor, got, parent_eq_none_iff reachedInferred]
  change (FileUrl.names segments).length ≤ _
  rw [names, length_take]
  exact Nat.min_le_left ..

theorem rootAncestor_eq_iff :
    lastAncestor (url.nonEmptySegments.length - convention.anchorDepth) (file url) =
    rootAncestor (file url) ↔ IsEvenlySpaced convention.anchorDepth url.segments := by
  have ends := parent_lastAncestor_iff inferred _ Nat.le.refl
  have fewer : url.nonEmptySegments.length ≤ url.segments.length := length_filter_le ..
  refine ⟨fun got => ?_, fun even => ?_⟩
  · rw [got] at ends
    exact (ends.mp (parent_rootAncestor inferred)).2
  · exact (lastAncestor_of_top (ends.mpr ⟨by omega, even⟩) (by omega)).symm

variable {lib : UrlLibrary}

theorem isPathUrl_of_inferred {segments : List Text} (valid : IsPathUrl lib url)
    (members : ∀ seg ∈ segments, seg ∈ url.segments ∨ seg = [])
    (fixed : url.nonEmptySegments.take convention.anchorDepth <+: FileUrl.names segments)
    (stillInferred : inferPathConvention (file ⟨url.host, segments⟩) = some convention) :
    tryFrom lib ⟨url.host, segments⟩ = .ok (file ⟨url.host, segments⟩) := by
  have noNull : ¬ (segments.any fun seg => (lib.decodeSegment seg).contains '\x00') = true := by
    simp only [any_eq_true, contains_eq_mem, decide_eq_true_eq]
    rintro ⟨seg, mem, null⟩
    rcases members seg mem with isIn | rfl
    · exact valid.noNull seg isIn null
    · rw [(lib.decode_eq_nil []).mpr rfl] at null
      cases null
  have norm := joined_normalized valid inferred fixed
    fun posix name first => notDrive_of_posix _ name (posix ▸ stillInferred) first
  rw [tryFrom, if_neg noNull, norm.1]

omit inferred in
theorem mem_pop {segments : List Text} {seg : Text} (mem : seg ∈ pop segments) :
    seg ∈ segments ∨ seg = [] := by
  unfold pop at mem
  split at mem
  · exact .inr (mem_singleton.mp mem)
  · exact .inl (dropLast_subset segments mem)

omit inferred in
theorem popIfEmpty_subset (segments : List Text) : popIfEmpty segments ⊆ segments := by
  unfold popIfEmpty
  split
  · exact dropLast_subset segments
  · exact Subset.refl _

theorem join_up (valid : IsPathUrl lib url) :
    join lib (file url) ['.', '.'] = .ok ((parent (file url)).getD
    (file { url with segments := popIfEmpty url.segments })) := by
  have relative : isRelativeText convention ['.', '.'] = true := by cases convention <;> rfl
  have parts : convention.pathSegments ['.', '.'] = [['.', '.']] := by
    cases convention <;> rfl
  have joined : joinedSegments lib url convention ['.', '.'] =
      if convention.anchorDepth < url.nonEmptySegments.length then
        pop (popIfEmpty url.segments)
      else popIfEmpty url.segments := by
    simp only [joinedSegments, parts, isWindowsRootRelative, foldl_cons, foldl_nil]
    simp only [joinComponent, apply_ite Prod.fst]
    simp
  rw [join_relative lib inferred (by simp) (by decide) relative,
    withoutOwnDrive_of_not_drive _ _ _ rfl]
  simp only [Except.bind, joined]
  have sameNames := names_popIfEmpty url.segments
  split
  next long =>
    obtain ⟨stillInferred, anchor⟩ := parent_step inferred long
    rw [parent_of_long inferred long]
    refine isPathUrl_of_inferred inferred valid (fun seg mem => ?_) ?_ stillInferred
    · exact (mem_pop mem).imp (popIfEmpty_subset _ ·) id
    · rw [← anchor]
      exact take_prefix ..
  next short =>
    rw [(parent_eq_none_iff inferred).mpr (Nat.le_of_not_lt short)]
    refine isPathUrl_of_inferred inferred valid (fun seg mem => ?_) ?_ ?_
    · exact .inl (popIfEmpty_subset _ mem)
    · rw [sameNames]
      exact take_prefix ..
    · rw [← inferred]
      exact inferPathConvention_congr (congrArg head? sameNames)

omit inferred in
theorem length_intercalate_concat (texts : List Text) (ne : texts ≠ []) :
    (List.intercalate ['/'] (texts ++ [[]])).length =
    (List.intercalate ['/'] texts).length + 1 := by
  induction texts with
  | nil => exact absurd rfl ne
  | cons first rest ih =>
    cases rest with
    | nil => simp
    | cons second rest =>
      rw [cons_append, cons_append, intercalate_cons_cons, intercalate_cons_cons, ← cons_append]
      simp only [length_append, ih (cons_ne_nil _ _)]
      omega

omit inferred in
theorem eqUri_popIfEmpty (same : eqUri lib
      (file { url with segments := popIfEmpty url.segments }) (file url) = true) :
    popIfEmpty url.segments = url.segments := by
  rcases eqUri_cases same with same | ⟨first, second, isFirst, isSecond, _, _, _, _, _, names⟩
  · exact congrArg FileUrl.segments (file.inj same)
  · cases isFirst
    cases isSecond
    by_contra different
    unfold popIfEmpty at different
    split at different
    next slash =>
      obtain ⟨initial, ends⟩ := getLast?_eq_some_iff.mp slash.1
      have popped : popIfEmpty url.segments = initial := by
        rw [popIfEmpty, if_pos slash, ends, dropLast_concat]
      have ne : initial ≠ [] := by
        rintro rfl
        rw [ends] at slash
        exact absurd slash.2 (by decide)
      have lengths := congrArg length names
      dsimp only at lengths
      rw [popped, ends, map_append, map_append, map_singleton, map_singleton,
        (lib.decode_eq_nil []).mpr rfl] at lengths
      have longer := length_intercalate_concat ((initial.map lib.decodeSegment).map lowercase)
        (by simpa using ne)
      change _ = (List.intercalate ['/'] (_ ++ [[]])).length at lengths
      omega
    · exact different rfl

variable (lib) in
/-- What going up one level means for a path and its depth. -/
structure GoesUp (uri : PathUri) : Prop where
  top : parent uri = none ↔ lexicalDepth lib uri = lexicalDepth lib (rootAncestor uri)
  step : ∀ above, parent uri = some above → startsWith lib uri above = true ∧
    ∃ depth, lexicalDepth lib above = some depth ∧ lexicalDepth lib uri = some (depth + 1)
  ends : parent (rootAncestor uri) = none ∧ ∃ depth rootDepth, lexicalDepth lib uri = some depth ∧
    lexicalDepth lib (rootAncestor uri) = some rootDepth ∧
    lastAncestor (depth - rootDepth) uri = rootAncestor uri
  joins : ∃ joined, join lib uri ['.', '.'] = .ok joined ∧
    eqUri lib joined ((parent uri).getD uri) = true

theorem lexicalDepth_eq_some_iff {depth : Nat} : lexicalDepth lib (file url) = some depth ↔
    HasPlainSegments lib convention url.nonEmptySegments ∧ url.nonEmptySegments.length = depth := by
  simp only [lexicalDepth, inferred, Option.bind_some, Option.map_eq_some_iff,
    containmentPathSegments_eq_some_iff]
  constructor
  · rintro ⟨_, ⟨plain, rfl⟩, rfl⟩
    exact ⟨plain, rfl⟩
  · rintro ⟨plain, rfl⟩
    exact ⟨_, ⟨plain, rfl⟩, rfl⟩

theorem lexicalDepth_rootAncestor (plain : HasPlainSegments lib convention url.nonEmptySegments) :
    lexicalDepth lib (rootAncestor (file url)) =
    some (min convention.anchorDepth url.nonEmptySegments.length) := by
  have loc := (location_eq_some_iff lib url _).mpr ⟨convention, inferred, plain, rfl⟩
  rw [lexicalDepth_eq, location_rootAncestor loc]
  simp [Location.depth, Location.root]

omit inferred in
theorem goesUp_iff (lib : UrlLibrary) (url : FileUrl) (convention : PathConvention)
    (valid : IsPathUrl lib url) (inferred : inferPathConvention (file url) = some convention) :
    GoesUp lib (file url) ↔ HasPlainSegments lib convention url.nonEmptySegments ∧
        IsEvenlySpaced convention.anchorDepth url.segments ∧
        (url.nonEmptySegments.length ≤ convention.anchorDepth →
          popIfEmpty url.segments = url.segments) := by
  have isTop := parent_eq_none_iff inferred
  constructor
  · intro goesUp
    obtain ⟨_, depth, rootDepth, isDepth, isRootDepth, reached⟩ := goesUp.ends
    obtain ⟨plain, rfl⟩ := (lexicalDepth_eq_some_iff inferred).mp isDepth
    rw [lexicalDepth_rootAncestor inferred plain, Option.some.injEq] at isRootDepth
    have steps : url.nonEmptySegments.length - rootDepth =
      url.nonEmptySegments.length - convention.anchorDepth := by omega
    rw [steps, rootAncestor_eq_iff inferred] at reached
    refine ⟨plain, reached, fun short => ?_⟩
    obtain ⟨joined, joins, same⟩ := goesUp.joins
    rw [join_up inferred valid, isTop.mpr short] at joins
    cases joins
    rw [isTop.mpr short] at same
    exact eqUri_popIfEmpty same
  · rintro ⟨plain, even, noSlash⟩
    have depth := (lexicalDepth_eq_some_iff inferred).mpr ⟨plain, rfl⟩
    have rootDepth := lexicalDepth_rootAncestor inferred plain
    refine ⟨?_, fun above isParent => ?_, ⟨parent_rootAncestor inferred, _, _, depth, rootDepth,
      ?_⟩, _, join_up inferred valid, ?_⟩
    · rw [isTop, depth, rootDepth, Option.some.injEq]
      omega
    · have long : convention.anchorDepth < url.nonEmptySegments.length := by
        by_contra short
        rw [isTop.mpr (Nat.le_of_not_lt short)] at isParent
        cases isParent
      rw [parent_of_long inferred long] at isParent
      cases isParent
      have stillInferred := (parent_step inferred long).1
      have upperNames : FileUrl.nonEmptySegments ⟨url.host,
          pop (popIfEmpty url.segments)⟩ = url.nonEmptySegments.dropLast :=
        ((isEvenlySpaced_pop long).mp even).2
      have upperPlain : HasPlainSegments lib convention url.nonEmptySegments.dropLast :=
        fun segment mem => plain segment (dropLast_subset _ mem)
      refine ⟨(startsWith_iff ((location_eq_some_iff lib url _).mpr
        ⟨convention, inferred, plain, rfl⟩)).mpr ⟨_, (location_eq_some_iff lib _ _).mpr
        ⟨convention, stillInferred, upperNames ▸ upperPlain, rfl⟩, rfl, rfl, ?_⟩,
        url.nonEmptySegments.length - 1, (lexicalDepth_eq_some_iff stillInferred).mpr ?_, ?_⟩
      · rw [upperNames]
        exact IsPrefix.map _ <| dropLast_prefix _
      · rw [upperNames, length_dropLast]
        exact ⟨upperPlain, rfl⟩
      · rw [depth]
        congr 1
        omega
    · have steps : url.nonEmptySegments.length -
        min convention.anchorDepth url.nonEmptySegments.length =
        url.nonEmptySegments.length - convention.anchorDepth := by omega
      rw [steps]
      exact (rootAncestor_eq_iff inferred).mpr even
    · by_cases short : url.nonEmptySegments.length ≤ convention.anchorDepth
      · rw [isTop.mpr short, noSlash short]
        simp [eqUri]
      · rw [parent_of_long inferred (Nat.lt_of_not_le short)]
        simp [eqUri]

omit inferred in
theorem goesUp_named : GoesUp urlLibrary (file ⟨none, [['a'], [], ['b']]⟩) := by
  have plain : ([['a'], ['b']].all fun segment => (urlLibrary.decodeSegment segment).all fun c =>
    !PathConvention.posix.isSeparator c) = true := by decide
  refine (goesUp_iff _ _ .posix (by unfold IsPathUrl; decide) (by decide)).mpr
    ⟨fun segment mem c inside => ?_, ?_, by decide⟩
  · simpa using all_eq_true.mp (all_eq_true.mp plain segment mem) c inside
  rintro before ⟨rest, split⟩
  have lengths := congrArg length split
  match before with
  | [] | [_] => simp at split
  | _ :: _ :: _ =>
    simp at lengths
    omega

omit inferred in
/-- The parent of `file:///a//` is as deep as the path itself. -/
theorem doubled_slash_is_no_level : IsPathUrl urlLibrary ⟨none, [['a'], [], []]⟩ ∧
      parent (file ⟨none, [['a'], [], []]⟩) = some (file ⟨none, [['a']]⟩) ∧
      lexicalDepth urlLibrary (file ⟨none, [['a'], [], []]⟩) = some 1 ∧
      lexicalDepth urlLibrary (file ⟨none, [['a']]⟩) = some 1 ∧
      ¬ GoesUp urlLibrary (file ⟨none, [['a'], [], []]⟩) := by
  refine ⟨by unfold IsPathUrl; decide, by decide, by decide, by decide, fun goesUp => ?_⟩
  obtain ⟨_, depth, isDepth, isNext⟩ := goesUp.step _ rfl
  cases isDepth.symm.trans (by decide : _ = some 1)
  exact absurd isNext (by decide)

end PathUri

end CodexFormal.Uri
