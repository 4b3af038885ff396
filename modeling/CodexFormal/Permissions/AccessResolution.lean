import CodexFormal.Permissions.Policy

/-!
# Access by the most specific rule

The resolved entries of a policy that have a location are rules for the forest
of locations, and the access of a path is that of the rule that governs it.
-/

set_option autoImplicit false

namespace CodexFormal.Permissions

open Foundation Uri List PathUri Option

instance : Hierarchy Location where
  Within := Location.Within
  depth := Location.depth
  within_refl := Location.Within.refl
  within_trans := Location.Within.trans
  within_of_depth_le := Location.Within.of_depth_le
  eq_of_depth_le := Location.Within.eq_of_depth_le

abbrev Rule := Location × FileSystemAccessMode

section

variable (lib : UrlLibrary)

theorem toOption_eq_some {ε α : Type} {res : Except ε α} {value : α} :
    res.toOption = some value ↔ res = .ok value := by
  cases res with
  | _ => simp [Except.toOption]

variable {lib} in
theorem mem_resolvedEntry {context : FileSystemSandboxPolicyContext}
    {entry : FileSystemSandboxEntry} {resolved : PathUri × FileSystemAccessMode} :
    resolved ∈ resolvedEntry lib context entry ↔ resolved.1 ∈ resolvedPaths lib context entry.path ∧
    inferPathConvention resolved.1 = inferPathConvention context.cwd ∧
    resolved.2 = entry.access := by
  obtain ⟨root, access⟩ := resolved
  simp only [resolvedEntry, List.mem_map, List.mem_filter, beq_iff_eq, Prod.mk.injEq]
  constructor
  · rintro ⟨path, ⟨mem, conv⟩, rfl, rfl⟩
    exact ⟨mem, conv, rfl⟩
  · rintro ⟨mem, conv, rfl⟩
    exact ⟨root, ⟨mem, conv⟩, rfl, rfl⟩

variable (entries : List (PathUri × FileSystemAccessMode))

def rules : List Rule :=
  entries.filterMap fun entry => (PathUri.location lib entry.1).map fun place => (place, entry.2)

variable {lib entries} in
theorem mem_rules {rule : Rule} : rule ∈ rules lib entries ↔
    ∃ root, (root, rule.2) ∈ entries ∧ location lib root = some rule.1 := by
  simp only [rules, mem_filterMap, map_eq_some_iff, Prod.exists]
  constructor
  · rintro ⟨root, mode, mem, place, loc, rfl⟩
    exact ⟨root, mem, loc⟩
  · rintro ⟨root, mem, loc⟩
    exact ⟨root, rule.2, mem, rule.1, loc, rfl⟩

theorem rules_append (first second : List (PathUri × FileSystemAccessMode)) :
    rules lib (first ++ second) = rules lib first ++ rules lib second :=
  filterMap_append

theorem mem_rules_congr {first second : List (PathUri × FileSystemAccessMode)}
    (same : ∀ entry, entry ∈ first ↔ entry ∈ second) (rule : Rule) :
    rule ∈ rules lib first ↔ rule ∈ rules lib second := by
  simp [mem_rules, same]

/-- No root is ambiguous: each one has a location or is a fallback. -/
def HasLexicalRoots : Prop :=
  ∀ entry ∈ entries, PathUri.isFallback entry.1 = true ∨
    (PathUri.location lib entry.1).isSome = true

theorem hasLexicalRoots_append (first second : List (PathUri × FileSystemAccessMode)) :
    HasLexicalRoots lib (first ++ second) ↔
    HasLexicalRoots lib first ∧ HasLexicalRoots lib second := by
  simp only [HasLexicalRoots, forall_mem_append]

theorem HasLexicalRoots.congr {lib : UrlLibrary}
    {first second : List (PathUri × FileSystemAccessMode)}
    (same : ∀ entry, entry ∈ first ↔ entry ∈ second) :
    HasLexicalRoots lib first ↔ HasLexicalRoots lib second := by
  simp [HasLexicalRoots, same]

variable {lib} in
theorem location_of_lexicalDepth {root : PathUri} {depth : Nat}
    (lex : lexicalDepth lib root = some depth) :
    ∃ place, location lib root = some place ∧ place.depth = depth := by
  rw [lexicalDepth_eq] at lex
  exact map_eq_some_iff.mp lex

theorem location_of_fallback {root : PathUri} (isFallback : isFallback root = true) :
    location lib root = none := by
  cases root with
  | fallback bytes => rfl
  | file url => cases isFallback

theorem lexicalEntries_eq_some (usable : List (PathUri × FileSystemAccessMode × Nat))
    (lex : lexicalEntries lib entries = some usable) : HasLexicalRoots lib entries ∧
    ∀ root mode depth, (root, mode, depth) ∈ usable ↔ (root, mode) ∈ entries ∧
    ∃ place, location lib root = some place ∧ place.depth = depth := by
  induction entries generalizing usable with
  | nil =>
    cases lex
    simp [HasLexicalRoots]
  | cons entry rest ih =>
    obtain ⟨root, mode⟩ := entry
    simp only [lexicalEntries] at lex
    cases depthOf : lexicalDepth lib root with
    | none =>
      simp only [depthOf] at lex
      split at lex
      next isFallback =>
        obtain ⟨restLexical, members⟩ := ih usable lex
        refine ⟨?_, ?_⟩
        · intro entry mem
          rcases mem_cons.mp mem with rfl | mem
          · exact .inl isFallback
          · exact restLexical entry mem
        · intro otherRoot otherAccess depth
          rw [members]
          constructor
          · rintro ⟨mem, loc⟩
            exact ⟨mem_cons_of_mem _ mem, loc⟩
          · rintro ⟨mem, place, loc, placeDepth⟩
            rcases mem_cons.mp mem with same | mem
            · cases same
              rw [location_of_fallback lib isFallback] at loc
              cases loc
            · exact ⟨mem, place, loc, placeDepth⟩
      · cases lex
    | some depth =>
      simp only [depthOf] at lex
      obtain ⟨more, restLexical, rfl⟩ := map_eq_some_iff.mp lex
      obtain ⟨restRoots, members⟩ := ih more restLexical
      obtain ⟨place, loc, placeDepth⟩ := location_of_lexicalDepth depthOf
      refine ⟨?_, ?_⟩
      · intro entry mem
        rcases mem_cons.mp mem with rfl | mem
        · exact .inr (by rw [loc]; rfl)
        · exact restRoots entry mem
      · intro otherRoot otherAccess otherDepth
        rw [mem_cons, mem_cons, members]
        constructor
        · rintro (same | ⟨mem, found⟩)
          · cases same
            exact ⟨.inl rfl, place, loc, placeDepth⟩
          · exact ⟨.inr mem, found⟩
        · rintro ⟨same | mem, otherPlace, otherLoc, otherPlaceDepth⟩
          · cases same
            rw [loc] at otherLoc
            cases otherLoc
            left
            rw [← otherPlaceDepth, ← placeDepth]
          · exact .inr ⟨mem, otherPlace, otherLoc, otherPlaceDepth⟩

theorem lexicalEntries_eq_none :
    lexicalEntries lib entries = none ↔ ¬ HasLexicalRoots lib entries := by
  constructor
  · intro unusable lex
    induction entries with
    | nil => cases unusable
    | cons entry rest ih =>
      obtain ⟨root, mode⟩ := entry
      have restLexical : HasLexicalRoots lib rest := fun entry mem =>
        lex entry (mem_cons_of_mem _ mem)
      simp only [lexicalEntries, lexicalDepth_eq] at unusable
      rcases lex (root, mode) (mem_cons_self ..) with isFallback | loc
      · simp only [location_of_fallback lib isFallback, map_none, isFallback, if_true] at unusable
        exact ih unusable restLexical
      · obtain ⟨place, loc⟩ := isSome_iff_exists.mp loc
        simp only [loc, map_some, map_eq_none_iff] at unusable
        exact ih unusable restLexical
  · intro ambiguous
    cases lex : lexicalEntries lib entries with
    | none => rfl
    | some usable => exact absurd (lexicalEntries_eq_some lib entries usable lex).1 ambiguous

namespace FileSystemSandboxPolicy

/-- The access that rules give a place: that of the governing rule, or none. -/
def GivesAccess (rules : List Rule) (place : Location) (access : FileSystemAccessMode) : Prop :=
  (∃ rule, Governs rules place rule ∧ rule.2 = access) ∨
    access = .deny ∧ ∀ rule ∈ rules, ¬ place.Within rule.1

theorem GivesAccess.unique {rules : List Rule} {place : Location}
    {first second : FileSystemAccessMode} (gives : GivesAccess rules place first)
    (other : GivesAccess rules place second) : first = second := by
  rcases gives with ⟨rule, gov, rfl⟩ | ⟨rfl, bare⟩
  · rcases other with ⟨otherRule, otherGov, rfl⟩ | ⟨_, bare⟩
    · rw [gov.unique otherGov]
    · exact absurd gov.covers (bare rule gov.mem)
  · rcases other with ⟨rule, gov, _⟩ | ⟨rfl, _⟩
    · exact absurd gov.covers (bare rule gov.mem)
    · rfl

theorem GivesAccess.congr {rules more : List Rule} {place : Location}
    {access : FileSystemAccessMode} (gives : GivesAccess rules place access)
    (same : ∀ rule, rule ∈ rules ↔ rule ∈ more) : GivesAccess more place access := by
  rcases gives with ⟨rule, gov, given⟩ | ⟨denied, bare⟩
  · exact .inl ⟨rule, gov.congr same, given⟩
  · exact .inr ⟨denied, fun rule mem => bare rule ((same rule).mpr mem)⟩

variable (policy : FileSystemSandboxPolicy) (path : PathUri)
  (ctx : FileSystemSandboxPolicyContext)

variable {lib path ctx} in
theorem givesAccess_resolveAccess {place : Location}
    (restricted : policy.kind = .restricted) (resolves : isResolvable lib ctx path = true)
    (loc : location lib path = some place)
    (lex : HasLexicalRoots lib (resolvedEntries lib policy ctx)) :
    GivesAccess (rules lib (resolvedEntries lib policy ctx)) place
    (resolveAccess lib policy path ctx) := by
  cases found : lexicalEntries lib (resolvedEntries lib policy ctx) with
  | none => exact absurd lex ((lexicalEntries_eq_none lib _).mp found)
  | some usable =>
    have members := (lexicalEntries_eq_some lib _ usable found).2
    have covering : ∀ root mode depth, (root, mode, depth) ∈
        usable.filter (fun entry => startsWith lib path entry.1) ↔
        (root, mode) ∈ resolvedEntries lib policy ctx ∧
          ∃ above, location lib root = some above ∧ above.depth = depth ∧ place.Within above := by
      intro root mode depth
      rw [mem_filter, members, startsWith_iff loc]
      constructor
      · rintro ⟨⟨mem, above, aboveLoc, aboveDepth⟩, other, otherLoc, within⟩
        cases aboveLoc.symm.trans otherLoc
        exact ⟨mem, above, aboveLoc, aboveDepth, within⟩
      · rintro ⟨mem, above, aboveLoc, aboveDepth, within⟩
        exact ⟨⟨mem, above, aboveLoc, aboveDepth⟩, above, aboveLoc, within⟩
    simp only [resolveAccess, restricted, resolves, if_true, found]
    cases most : lastMaximum (fun (entry : PathUri × FileSystemAccessMode × Nat) =>
      (entry.2.2, entry.2.1))
      (usable.filter fun entry => startsWith lib path entry.1) with
    | none =>
      right
      refine ⟨rfl, fun rule mem within => ?_⟩
      obtain ⟨root, entry, rootLoc⟩ := mem_rules.mp mem
      have isIn := (covering root rule.2 rule.1.depth).mpr ⟨entry, rule.1, rootLoc, rfl, within⟩
      rw [(lastMaximum_eq_none _ _).mp most] at isIn
      cases isIn
    | some entry =>
      obtain ⟨root, mode, depth⟩ := entry
      obtain ⟨mem, bound⟩ := lastMaximum_eq_some _ _ _ most
      obtain ⟨entry, above, aboveLoc, rfl, within⟩ :=
        (covering root mode depth).mp mem
      refine .inl ⟨(above, mode), ⟨mem_rules.mpr ⟨root, entry, aboveLoc⟩,
        within, fun rule ruleMem covers => ?_⟩, rfl⟩
      obtain ⟨ruleRoot, ruleEntry, ruleLocated⟩ := mem_rules.mp ruleMem
      exact bound (ruleRoot, rule.2, rule.1.depth) ((covering ruleRoot rule.2 rule.1.depth).mpr
        ⟨ruleEntry, rule.1, ruleLocated, rfl, covers⟩)

variable {lib ctx} in
theorem location_of_resolvable {path : PathUri} (found : isResolvable lib ctx path = true) :
    ∃ place, location lib path = some place := by
  unfold isResolvable at found
  split at found
  · cases found
  · rw [Bool.and_eq_true, Bool.and_eq_true] at found
    obtain ⟨depth, lex⟩ := isSome_iff_exists.mp found.1.2
    obtain ⟨place, loc, _⟩ := location_of_lexicalDepth lex
    exact ⟨place, loc⟩

variable {lib policy path ctx} in
theorem resolveAccess_of_not_resolvable (restricted : policy.kind = .restricted)
    (unresolvable : isResolvable lib ctx path = false) :
    resolveAccess lib policy path ctx = .deny := by
  simp [resolveAccess, restricted, unresolvable]

variable {lib policy ctx} in
theorem resolveAccess_of_ambiguous (restricted : policy.kind = .restricted)
    (ambiguous : ¬ HasLexicalRoots lib (resolvedEntries lib policy ctx)) :
    resolveAccess lib policy path ctx = .deny := by
  simp [resolveAccess, restricted, (lexicalEntries_eq_none lib _).mpr ambiguous]

end FileSystemSandboxPolicy

end

end CodexFormal.Permissions
