import CodexFormal.Sandboxing.EffectivePolicy

/-!
# Denials that outlive a replaced policy

When the allow side of a policy is replaced, the denials of the old policy are
added to the new one.
-/

set_option autoImplicit false

namespace CodexFormal.Sandboxing

open Foundation Permissions Permissions.FileSystemSandboxPolicy Uri List

variable (lib : UrlLibrary) (policy existing : FileSystemSandboxPolicy)

def denyEntries : List FileSystemSandboxEntry := existing.entries.filter (·.access == .deny)

/-- The last part of the source's function, for a restricted policy. -/
def addDenyEntries : FileSystemSandboxPolicy :=
  { policy with
    globScanMaxDepth := policy.globScanMaxDepth.or existing.globScanMaxDepth
    entries := (denyEntries existing).foldl (pushNew lib) policy.entries }

def preserveDenyReadRestrictionsFrom : FileSystemSandboxPolicy :=
  let policy :=
    if policy.kind = .unrestricted ∧ existing.entries.any (·.access == .deny) then
      restrictedTo [⟨.special .root, .write, none⟩]
    else policy
  if policy.kind = .restricted then addDenyEntries lib policy existing else policy

/-- Nothing is accessible or writable that was not before. -/
def Narrows (after : FileSystemSandboxPolicy) : Prop :=
  ∀ path context, (resolveAccess lib after path context).breadth ≤
      (resolveAccess lib policy path context).breadth ∧
    (canWritePath lib after path context = true → canWritePath lib policy path context = true)

theorem foldl_pushNew_eq_append (entries start : List FileSystemSandboxEntry) :
    ∃ more, entries.foldl (pushNew lib) start = start ++ more ∧ more ⊆ entries := by
  induction entries generalizing start with
  | nil => exact ⟨[], (append_nil start).symm, nil_subset _⟩
  | cons entry rest ih =>
    obtain ⟨more, same, subset⟩ := ih (pushNew lib start entry)
    rw [foldl_cons, same]
    unfold pushNew
    split
    · exact ⟨more, rfl, subset_cons_of_subset entry subset⟩
    · exact ⟨entry :: more, append_assoc .., cons_subset_cons entry subset⟩

variable {lib policy existing} {after : FileSystemSandboxPolicy} {path : PathUri}
  {context : FileSystemSandboxPolicyContext}

/-- The rules decide about a path, unless it or a root is ambiguous. -/
theorem givesAccess_or_deny (restricted : policy.kind = .restricted) :
    resolveAccess lib policy path context = .deny ∨ ∃ place,
    PathUri.location lib path = some place ∧ isResolvable lib context path = true ∧
    HasLexicalRoots lib (resolvedEntries lib policy context) ∧
    GivesAccess (rules lib (resolvedEntries lib policy context)) place
      (resolveAccess lib policy path context) := by
  cases resolvable : isResolvable lib context path with
  | false => exact .inl (resolveAccess_of_not_resolvable restricted resolvable)
  | true =>
    obtain ⟨place, located⟩ := location_of_resolvable resolvable
    by_cases lexical : HasLexicalRoots lib (resolvedEntries lib policy context)
    · exact .inr ⟨place, located, rfl, lexical,
        givesAccess_resolveAccess policy restricted resolvable located lexical⟩
    · exact .inl (resolveAccess_of_ambiguous path restricted lexical)

section

variable {more : List FileSystemSandboxEntry} (kind : policy.kind = .restricted)
  (kindAfter : after.kind = .restricted) (appended : after.entries = policy.entries ++ more)
  (denies : ∀ entry ∈ more, entry.access = .deny)

include denies in
theorem resolvedEntries_denies (resolved : PathUri × FileSystemAccessMode)
    (mem : resolved ∈ resolvedEntries lib (restrictedTo more) context) : resolved.2 = .deny := by
  obtain ⟨entry, inside, found⟩ := mem_resolvedEntries_restrictedTo.mp mem
  exact (mem_resolvedEntry.mp found).2.2.trans (denies entry inside)

include appended in
theorem resolvedEntries_of_append : resolvedEntries lib after context =
    resolvedEntries lib policy context ++ resolvedEntries lib (restrictedTo more) context := by
  simp [resolvedEntries, restrictedTo, appended]

include kind kindAfter appended denies

theorem breadth_le_of_denials : (resolveAccess lib after path context).breadth ≤
    (resolveAccess lib policy path context).breadth := by
  rcases givesAccess_or_deny kindAfter with
    denied | ⟨place, located, resolvable, lexical, ⟨rule, gov, given⟩ | ⟨denied, _⟩⟩
  · exact denied ▸ Nat.zero_le _
  · rw [resolvedEntries_of_append appended] at gov lexical
    rw [rules_append] at gov
    rw [← given]
    rcases mem_append.mp gov.mem with old | added
    · rw [(givesAccess_resolveAccess policy kind resolvable located
        ((hasLexicalRoots_append ..).mp lexical).1).unique (.inl ⟨rule, gov.of_subset old
          fun other mem => mem_append_left _ mem, rfl⟩)]
    · obtain ⟨root, found, _⟩ := mem_rules.mp added
      rw [resolvedEntries_denies denies _ found]
      exact Nat.zero_le _
  · exact denied ▸ Nat.zero_le _

theorem metadataWriteDenial_denials :
    metadataWriteDenial lib after path context = metadataWriteDenial lib policy path context := by
  have noGrant : ∀ resolved ∈ resolvedEntries lib (restrictedTo more) context,
      ¬ resolved.2.canWrite = true := by
    intro resolved mem
    rw [resolvedEntries_denies denies resolved mem]
    decide
  simp only [metadataWriteDenial, kind, kindAfter, if_true, resolvedEntries_of_append appended,
    filter_append, filter_eq_nil_iff.mpr noGrant, append_nil]
  split
  · rfl
  · refine if_congr ?_ rfl rfl
    rw [any_append, Bool.or_eq_true, or_iff_left]
    rw [any_eq_true]
    rintro ⟨resolved, mem, grants⟩
    rw [Bool.and_eq_true, Bool.and_eq_true] at grants
    exact noGrant resolved mem grants.1.1

theorem hasFullDiskWriteAccess_of_denials
    (full : hasFullDiskWriteAccessWithContext lib after context = true) :
    hasFullDiskWriteAccessWithContext lib policy context = true := by
  have refuses : ∀ entry ∈ more, entry.access.canWrite = false := fun entry mem => by
    rw [denies entry mem]
    rfl
  have override : ∀ entry convention, hasSameTargetWriteOverride lib after entry convention =
      hasSameTargetWriteOverride lib policy entry convention := by
    intro entry convention
    simp only [hasSameTargetWriteOverride, appended, any_append, Bool.or_eq_left_iff_imp]
    simp +contextual [refuses]
  simp only [hasFullDiskWriteAccessWithContext, hasFullDiskWriteAccessForConvention, kind,
    kindAfter] at full ⊢
  split at full
  · simp only [hasRootAccess, hasWriteNarrowingEntries, override, kind, kindAfter, appended,
      any_append, beq_self_eq_true, Bool.true_and, Bool.and_eq_true, Bool.or_eq_true,
      Bool.not_eq_true', Bool.or_eq_false_iff] at full ⊢
    refine ⟨full.1.resolve_right fun found => ?_, full.2.1⟩
    obtain ⟨entry, mem, grants⟩ := any_eq_true.mp found
    simp [refuses entry mem] at grants
  · cases full

theorem narrows_of_denials : Narrows lib policy after := by
  intro path context
  have atMost : (resolveAccess lib after path context).breadth ≤ _ :=
    breadth_le_of_denials kind kindAfter appended denies
  refine ⟨atMost, fun writes => ?_⟩
  rw [canWritePath, Bool.and_eq_true, Bool.or_eq_true] at writes ⊢
  refine ⟨?_, writes.2.imp (hasFullDiskWriteAccess_of_denials kind kindAfter appended denies)
    fun allowed => metadataWriteDenial_denials kind kindAfter appended denies ▸ allowed⟩
  have write := beq_iff_eq.mp writes.1
  rw [write] at atMost
  cases access : resolveAccess lib policy path context <;> rw [access] at atMost <;>
    first | rfl | exact absurd atMost (by decide)

end

/-- A denial decides about its own root, whatever else covers it. -/
theorem eq_deny_of_givesAccess {rules : List Rule} {place : Location}
    {access : FileSystemAccessMode} (gives : GivesAccess rules place access)
    (mem : (place, .deny) ∈ rules) : access = .deny := by
  rcases gives with ⟨⟨root, granted⟩, gov, rfl⟩ | ⟨denied, _⟩
  · rcases gov.greatest _ mem (Location.Within.refl place) with deeper | ⟨_, above⟩
    · exact absurd gov.covers.depth_le (Nat.not_le.mpr deeper)
    · have greatest : ∀ access, FileSystemAccessMode.deny ≤ access → access = .deny := by
        rintro (_ | _ | _) <;> decide
      exact greatest granted above
  · exact denied

variable (lib existing)

theorem narrows_of_not_restricted (kind : policy.kind ≠ .restricted) :
    Narrows lib policy after := by
  intro path context
  have write : resolveAccess lib policy path context = .write := by
    unfold resolveAccess
    split <;> first | rfl | contradiction
  have full : hasFullDiskWriteAccessWithContext lib policy context = true := by
    unfold hasFullDiskWriteAccessWithContext hasFullDiskWriteAccessForConvention
    split <;> first | rfl | contradiction
  refine ⟨?_, fun _ => by simp [canWritePath, write, full, FileSystemAccessMode.canWrite]⟩
  rw [write]
  cases resolveAccess lib after path context <;> decide

theorem addDenyEntries_denies (kind : policy.kind = .restricted) {root : PathUri}
    (mem : (root, .deny) ∈ resolvedEntries lib existing context) :
    resolveAccess lib (addDenyEntries lib policy existing) root context = .deny := by
  obtain ⟨entry, inside, found⟩ := mem_resolvedEntries_restrictedTo.mp mem
  have isDenial : entry ∈ denyEntries existing :=
    mem_filter.mpr ⟨inside, beq_iff_eq.mpr (mem_resolvedEntry.mp found).2.2.symm⟩
  obtain ⟨other, listed, alike⟩ :=
    (represents_foldl_pushNew lib (denyEntries existing) policy.entries).resolved context _
      (mem_resolvedEntries_restrictedTo.mpr ⟨entry, mem_append_right _ isDenial, found⟩)
  have kindAfter : (addDenyEntries lib policy existing).kind = .restricted := kind
  rcases givesAccess_or_deny kindAfter with denied | ⟨place, located, _, _, gives⟩
  · exact denied
  · exact eq_deny_of_givesAccess gives (mem_rules.mpr
      ⟨other, listed, (PathUri.location_eq_of_eqUri lib _ _ alike).trans located⟩)

variable (policy)

/-- Keeping the denials never widens access, and the root of each one stays denied. -/
theorem preserveDenyReadRestrictionsFrom_narrows :
    let after := preserveDenyReadRestrictionsFrom lib policy existing
    Narrows lib policy after ∧ (policy.kind = .externalSandbox ∨ ∀ context root,
      (root, .deny) ∈ resolvedEntries lib existing context →
      resolveAccess lib after root context = .deny) := by
  unfold preserveDenyReadRestrictionsFrom
  cases kind : policy.kind with
  | externalSandbox => exact ⟨narrows_of_not_restricted lib (by simp [kind]), .inl rfl⟩
  | unrestricted =>
    refine ⟨narrows_of_not_restricted lib (by simp [kind]), .inr fun context root mem => ?_⟩
    -- An entry that denies makes the policy a restricted one.
    obtain ⟨entry, inside, found⟩ := mem_resolvedEntries_restrictedTo.mp mem
    have denies : existing.entries.any (·.access == .deny) = true :=
      any_eq_true.mpr ⟨entry, inside, beq_iff_eq.mpr (mem_resolvedEntry.mp found).2.2.symm⟩
    simp only [denies, and_self, if_true]
    exact addDenyEntries_denies lib existing rfl mem
  | restricted =>
    obtain ⟨more, appended, subset⟩ :=
      foldl_pushNew_eq_append lib (denyEntries existing) policy.entries
    simp only [reduceCtorEq, false_and, if_false, kind, if_true]
    exact ⟨narrows_of_denials kind kind appended
      fun entry mem => beq_iff_eq.mp (mem_filter.mp (subset mem)).2,
      .inr fun context root mem => addDenyEntries_denies lib existing kind mem⟩

end CodexFormal.Sandboxing
