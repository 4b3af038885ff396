import CodexFormal.Sandboxing.MaterializedEntries

/-!
# Accepted grants

A granted entry is accepted where the rule of the request that governs its path
covers it and no denial of the request lies at or above it, that of the root
apart.
-/

set_option autoImplicit false

namespace CodexFormal.Sandboxing

open Foundation Permissions Uri PathUri
open Permissions.FileSystemSandboxPolicy
open Patch (Text)

section

variable (lib : UrlLibrary) (replaced : Bytes → Text) (globs : GlobLibrary)

def RootWithoutRequest (requested : FileSystemPermissions)
    (context : FileSystemSandboxPolicyContext) (entry : FileSystemSandboxEntry) : Prop :=
  PathUri.inferPathConvention context.cwd = some .windows ∧ isRootEntry entry = true ∧
    ∀ requestedEntry ∈ requested.entries, isRootEntry requestedEntry = true →
      accessCovers requestedEntry.access entry.access = false

/-- What the request allows at the place of an accepted entry. -/
structure Covered (context : FileSystemSandboxPolicyContext)
    (requestedEntries : List FileSystemSandboxEntry) (access : FileSystemAccessMode)
    (place : Location) : Prop where
  lexical : AreLexical lib context requestedEntries
  governed : ∃ rule, Governs (rulesOf lib context requestedEntries) place rule ∧
    accessCovers rule.2 access = true
  notDenied : ∀ rule ∈ rulesOf lib context requestedEntries, rule.2 = .deny →
    place.Within rule.1 → IsRootPlace lib context rule.1

variable (ctx : FileSystemSandboxPolicyContext)

theorem deniedPattern_of_standsFor (entry : FileSystemSandboxEntry) (path : PathUri)
    (stands : StandsFor lib ctx entry path) : deniedPattern entry = none := by
  unfold deniedPattern
  rcases stands.shape with shape | shape
  · rw [shape]
  · rw [shape]

variable (requests : List FileSystemSandboxEntry)

variable {lib ctx requests} in
theorem readDenied_iff (requestAt : AllStand lib ctx requests) {path : PathUri} {place : Location}
    (loc : location lib path = some place) (found : isResolvable lib ctx path = true) :
    ((ReadDenyMatcher.fromContext lib replaced globs (restrictedTo requests) ctx).any
    fun matcher => matcher.isReadDeniedUri lib replaced path ctx) = true ↔
    ∃ rule ∈ rulesOf lib ctx requests, rule.2 = .deny ∧ place.Within rule.1 ∧
    ¬ IsRootPlace lib ctx rule.1 := by
  have noPatterns : ∀ entry ∈ (restrictedTo requests).entries, deniedPattern entry = none := by
    intro entry mem
    obtain ⟨path, stands⟩ := requestAt entry mem
    exact deniedPattern_of_standsFor lib ctx entry path stands
  rw [ReadDenyMatcher.fromContext_any_isReadDeniedUri_iff lib replaced globs _ ctx path
    noPatterns found]
  constructor
  · rintro ⟨root, mem, notRoot, covers⟩
    obtain ⟨above, rootLoc, within⟩ :=
      (startsWith_iff loc).mp covers
    refine ⟨(above, .deny), mem_rules.mpr ⟨root, mem, rootLoc⟩, rfl, within, ?_⟩
    intro isRoot
    rw [(isFileSystemRoot_iff rootLoc).mpr isRoot] at notRoot
    cases notRoot
  · rintro ⟨⟨above, mode⟩, mem, rfl, within, notRoot⟩
    obtain ⟨root, isIn, rootLoc⟩ := mem_rules.mp mem
    refine ⟨root, isIn, ?_, (startsWith_iff loc).mpr ⟨above, rootLoc, within⟩⟩
    rw [Bool.eq_false_iff]
    exact mt (isFileSystemRoot_iff rootLoc).mp notRoot

theorem accessCovers_deny (mode : FileSystemAccessMode) : accessCovers .deny mode = false := by
  cases mode <;> rfl

variable {lib ctx requests} in
theorem accessCovers_resolveAccess_iff {path : PathUri} {mode : FileSystemAccessMode} :
    accessCovers (resolveAccess lib (restrictedTo requests) path ctx) mode = true ↔
    isResolvable lib ctx path = true ∧ AreLexical lib ctx requests ∧
    ∃ place, location lib path = some place ∧
    ∃ rule, Governs (rulesOf lib ctx requests) place rule ∧ accessCovers rule.2 mode = true := by
  cases found : isResolvable lib ctx path with
  | false =>
    rw [resolveAccess_of_not_resolvable rfl found, accessCovers_deny]
    simp
  | true =>
    obtain ⟨place, loc⟩ := location_of_resolvable found
    by_cases lex : AreLexical lib ctx requests
    · have gives := givesAccess_resolveAccess (restrictedTo requests) rfl found loc lex
      simp only [lex, loc, Option.some.injEq, exists_eq_left', true_and]
      constructor
      · intro covers
        rcases gives with ⟨rule, gov, given⟩ | ⟨denied, _⟩
        · exact ⟨rule, gov, by rw [given, covers]⟩
        · rw [denied, accessCovers_deny] at covers
          cases covers
      · rintro ⟨rule, gov, covers⟩
        rwa [gives.unique (.inl ⟨rule, gov, rfl⟩)]
    · rw [resolveAccess_of_ambiguous path rfl lex, accessCovers_deny]
      simp [lex]

variable {replaced globs} in
variable {lib} in
theorem within_iff_covered {requested : FileSystemPermissions}
    {ctx : FileSystemSandboxPolicyContext} {requests : List FileSystemSandboxEntry}
    (requestAt : AllStand lib ctx requests) {entry : FileSystemSandboxEntry}
    {path : PathUri} (stands : StandsFor lib ctx entry path) :
    grantedFileSystemEntryWithinRequest lib replaced requested (restrictedTo requests)
    (ReadDenyMatcher.fromContext lib replaced globs (restrictedTo requests) ctx)
    entry ctx = true ↔ entry.access ≠ .deny ∧ ¬ RootWithoutRequest requested ctx entry ∧
    isResolvable lib ctx path = true ∧ ∃ place, location lib path = some place ∧
    Covered lib ctx requests entry.access place := by
  have notSlashTmp : (entry.path == .special .slashTmp) = false := by
    rcases stands.shape with shape | shape
    · rw [shape]
      rfl
    · rw [shape]
      rfl
  have rootTest : (PathUri.inferPathConvention ctx.cwd == some .windows &&
      isRootEntry entry && !(requested.entries.any fun requestedEntry =>
        isRootEntry requestedEntry && accessCovers requestedEntry.access entry.access)) = true ↔
      RootWithoutRequest requested ctx entry := by
    simp [RootWithoutRequest, and_assoc]
  unfold grantedFileSystemEntryWithinRequest
  simp only [notSlashTmp, Bool.false_and, Bool.or_false, stands.permissionPath]
  by_cases grants : entry.access = .deny
  · simp [grants, FileSystemAccessMode.canRead]
  · have reads : entry.access.canRead = true := by simpa [FileSystemAccessMode.canRead] using grants
    by_cases rootless : RootWithoutRequest requested ctx entry
    · rw [if_pos (rootTest.mpr rootless)]
      simp [rootless]
    · rw [if_neg (mt rootTest.mp rootless)]
      simp only [reads, Bool.not_true, Bool.false_eq_true, if_false, rootless, not_false_eq_true,
        true_and, ne_eq, grants]
      constructor
      · intro isOk
        split at isOk
        · cases isOk
        next may =>
          rw [Bool.or_eq_true, not_or] at may
          obtain ⟨found, lexical, place, loc, governed⟩ :=
            accessCovers_resolveAccess_iff.mp isOk
          refine ⟨found, place, loc, lexical, governed, ?_⟩
          intro rule mem denies within
          by_contra notRoot
          exact may.2 ((readDenied_iff replaced globs requestAt loc found).mpr
            ⟨rule, mem, denies, within, notRoot⟩)
      · rintro ⟨found, place, loc, covered⟩
        have sameConv : (PathUri.inferPathConvention path !=
            PathUri.inferPathConvention ctx.cwd) = false := by
          unfold isResolvable at found
          split at found
          · cases found
          next conv infer =>
            rw [Bool.and_eq_true, Bool.and_eq_true, beq_iff_eq] at found
            simp [found.1.1, infer]
        have may : ((ReadDenyMatcher.fromContext lib replaced globs
            (restrictedTo requests) ctx).any fun matcher =>
              matcher.isReadDeniedUri lib replaced path ctx) = false := by
          rw [Bool.eq_false_iff]
          intro denied
          obtain ⟨rule, mem, denies, within, notRoot⟩ :=
            (readDenied_iff replaced globs requestAt loc found).mp denied
          exact notRoot (covered.notDenied rule mem denies within)
        rw [sameConv, may]
        exact accessCovers_resolveAccess_iff.mpr
          ⟨found, covered.lexical, place, loc, covered.governed⟩

end

end CodexFormal.Sandboxing
