import CodexFormal.Sandboxing.AcceptedGrants

/-!
# Grants within the request and the grant

The rule that decides about a path in the intersection is an accepted grant or a
denial of either side.  A requested read that lies below an accepted write is
dropped, and the path below it can be written.
-/

set_option autoImplicit false

namespace CodexFormal.Sandboxing

open Foundation Permissions Uri List PathUri FileSystemAccessMode
open Permissions.FileSystemSandboxPolicy
open Patch (Text)
open PercentEncoding (urlLibrary)

section

variable (lib : UrlLibrary) (replaced : Bytes → Text) (globs : GlobLibrary)

/-! ## What the intersection consists of -/

section Intersection

variable (requested : FileSystemPermissions)
  (requestedEntries grantedEntries : List FileSystemSandboxEntry)
  (context : FileSystemSandboxPolicyContext)

def acceptedGrants : List FileSystemSandboxEntry :=
  grantedEntries.filter fun entry =>
    grantedFileSystemEntryWithinRequest lib replaced requested (restrictedTo requestedEntries)
      (ReadDenyMatcher.fromContext lib replaced globs (restrictedTo requestedEntries) context)
      entry context

def denials : List FileSystemSandboxEntry :=
  (requestedEntries ++ grantedEntries).filter fun entry => entry.access == .deny

def retainedDenials : List FileSystemSandboxEntry :=
  constrainingDenyEntries lib (requestedEntries ++ grantedEntries)
    ((acceptedGrants lib replaced globs requested requestedEntries grantedEntries context).foldl
      (pushNew lib) []) context

def intersectedEntries : List FileSystemSandboxEntry :=
  (acceptedGrants lib replaced globs requested requestedEntries grantedEntries context ++
    retainedDenials lib replaced globs requested requestedEntries grantedEntries context).foldl
    (pushNew lib) []

variable {lib replaced globs requested requestedEntries grantedEntries context}

theorem entries_of_intersect {given res : FileSystemPermissions}
    (found : intersectFileSystemPermissions lib replaced globs requested given context =
    some res) : ∃ requestedEntries grantedEntries,
    materializeContextDependentEntries lib replaced context requested.entries =
    some requestedEntries ∧
    materializeContextDependentEntries lib replaced context given.entries = some grantedEntries ∧
    res.entries = intersectedEntries lib replaced globs requested requestedEntries
    grantedEntries context := by
  obtain ⟨requestedEntries, requestedFound, found⟩ := Option.bind_eq_some_iff.mp found
  obtain ⟨grantedEntries, grantedFound, rfl⟩ := Option.map_eq_some_iff.mp found
  refine ⟨requestedEntries, grantedEntries, requestedFound, grantedFound, ?_⟩
  simp [intersectedEntries, retainedDenials, retainConstrainingDenyEntries,
    constrainingDenyEntries, acceptedGrants]

theorem represents_intersectedEntries : Represents lib
      (intersectedEntries lib replaced globs requested requestedEntries grantedEntries context)
      (acceptedGrants lib replaced globs requested requestedEntries grantedEntries context ++
        retainedDenials lib replaced globs requested requestedEntries grantedEntries context) :=
  represents_foldl_pushNew lib _ []

theorem rulesOf_append (first second : List FileSystemSandboxEntry) :
    rulesOf lib context (first ++ second) =
    rulesOf lib context first ++ rulesOf lib context second := by
  simp [rulesOf, resolvedEntries, restrictedTo, rules_append]

theorem areLexical_append (first second : List FileSystemSandboxEntry) :
    AreLexical lib context (first ++ second) ↔
    AreLexical lib context first ∧ AreLexical lib context second := by
  simp [AreLexical, resolvedEntries, restrictedTo, hasLexicalRoots_append]

theorem rulesOf_subset {entries all : List FileSystemSandboxEntry}
    (subset : ∀ entry ∈ entries, entry ∈ all) {rule : Rule}
    (mem : rule ∈ rulesOf lib context entries) : rule ∈ rulesOf lib context all := by
  obtain ⟨root, isIn, loc⟩ := mem_rules.mp mem
  exact mem_rules.mpr ⟨root, resolvedEntries_subset lib context subset _ isIn, loc⟩

variable {entries : List FileSystemSandboxEntry}

theorem exists_entry_of_mem_rulesOf (stand : AllStand lib context entries) {rule : Rule}
    (mem : rule ∈ rulesOf lib context entries) :
    ∃ entry ∈ entries, ∃ path, StandsFor lib context entry path ∧ entry.access = rule.2 ∧
    location lib path = some rule.1 ∧
    inferPathConvention path = inferPathConvention context.cwd := by
  obtain ⟨root, isIn, loc⟩ := mem_rules.mp mem
  obtain ⟨entry, entryMem, resolved⟩ :=
    mem_resolvedEntries_restrictedTo.mp isIn
  obtain ⟨path, stands⟩ := stand entry entryMem
  obtain ⟨isPath, conv, access⟩ := mem_resolvedEntry.mp resolved
  rw [stands.resolved] at isPath
  cases mem_singleton.mp isPath
  exact ⟨entry, entryMem, root, stands, access.symm, loc, conv⟩

theorem mem_rulesOf_of_entry (entries : List FileSystemSandboxEntry)
    (entry : FileSystemSandboxEntry) (path : PathUri) (place : Location)
    (mem : entry ∈ entries) (stands : StandsFor lib context entry path)
    (loc : location lib path = some place)
    (conv : inferPathConvention path = inferPathConvention context.cwd) :
    (place, entry.access) ∈ rulesOf lib context entries := by
  refine mem_rules.mpr ⟨path, ?_, loc⟩
  refine mem_resolvedEntries_restrictedTo.mpr ⟨entry, mem, ?_⟩
  refine mem_resolvedEntry.mpr ⟨?_, conv, rfl⟩
  rw [stands.resolved]
  exact mem_singleton.mpr rfl

/-! ## Denials that meet a grant -/

theorem pathsOverlap_of_common {left right : PathUri} {leftPlace rightPlace place : Location}
    (leftLocated : location lib left = some leftPlace)
    (rightLocated : location lib right = some rightPlace)
    (belowLeft : place.Within leftPlace) (belowRight : place.Within rightPlace) :
    pathsOverlap lib left right = true := by
  unfold pathsOverlap overlaps
  split
  · rfl
  · have meets : (startsWith lib left right || startsWith lib right left) =
        true := by
      rw [Bool.or_eq_true, startsWith_iff leftLocated, startsWith_iff rightLocated]
      rcases Nat.le_total rightPlace.depth leftPlace.depth with shallower | shallower
      · exact .inl ⟨rightPlace, rightLocated, belowRight.of_depth_le belowLeft shallower⟩
      · exact .inr ⟨leftPlace, leftLocated, belowLeft.of_depth_le belowRight shallower⟩
    simp [lexicalDepth_eq, leftLocated, rightLocated, meets]

theorem pathsOverlap_of_ambiguous (left right : PathUri)
    (ambiguous : location lib left = none) : pathsOverlap lib left right = true := by
  unfold pathsOverlap overlaps
  split
  · rfl
  · simp [lexicalDepth_eq, ambiguous]

theorem constrains_of_pathsOverlap {acceptedEntries : List FileSystemSandboxEntry}
    {denyEntry grant : FileSystemSandboxEntry} {denyPath grantPath : PathUri}
    (denyStands : StandsFor lib context denyEntry denyPath)
    (grantStands : StandsFor lib context grant grantPath) (mem : grant ∈ acceptedEntries)
    (grants : grant.access ≠ .deny) (overlap : pathsOverlap lib denyPath grantPath = true) :
    denyEntryConstrainsAcceptedGrant lib denyEntry acceptedEntries context = true := by
  have reads : grant.access.canRead = true := by simpa [canRead] using grants
  refine any_eq_true.mpr ⟨grant, mem_filter.mpr ⟨mem, reads⟩, ?_⟩
  rw [Bool.or_eq_true]
  right
  simp only [grantStands.permissionPath]
  rcases denyStands.shape with shape | shape
  · simpa only [shape, resolvePermissionPath] using overlap
  · have target := denyStands.permissionPath
    rw [shape] at target
    simpa only [shape, target] using overlap

/-! ## The deciding grant -/

variable (requestAt : AllStand lib context requestedEntries)
  (grantAt : AllStand lib context grantedEntries)

theorem allStand_filter
    (stand : AllStand lib context entries) (keep : FileSystemSandboxEntry → Bool) :
    AllStand lib context (entries.filter keep) :=
  fun entry mem => stand entry (mem_of_mem_filter mem)

theorem allStand_append {first second : List FileSystemSandboxEntry}
    (firstStands : AllStand lib context first) (secondStands : AllStand lib context second) :
    AllStand lib context (first ++ second) :=
  forall_mem_append.mpr ⟨firstStands, secondStands⟩

theorem access_of_mem_denials (denial : Rule)
    (mem : denial ∈ rulesOf lib context (denials requestedEntries grantedEntries)) :
    denial.2 = .deny := by
  obtain ⟨root, isIn, _⟩ := mem_rules.mp mem
  obtain ⟨entry, entryMem, resolved⟩ :=
    mem_resolvedEntries_restrictedTo.mp isIn
  obtain ⟨_, _, mode⟩ := mem_resolvedEntry.mp resolved
  exact mode.trans (beq_iff_eq.mp (mem_filter.mp entryMem).2)

variable (lib replaced globs requested requestedEntries grantedEntries context) in
/-- The accepted grant that governs against the denials of both sides. -/
structure Decides (place : Location) (grant : Rule) : Prop where
  lexical : AreLexical lib context (denials requestedEntries grantedEntries)
  accepted : grant ∈ rulesOf lib context
    (acceptedGrants lib replaced globs requested requestedEntries grantedEntries context)
  governs : Governs (rulesOf lib context
    (acceptedGrants lib replaced globs requested requestedEntries grantedEntries context ++
      denials requestedEntries grantedEntries)) place grant

theorem mem_intersectedEntries_iff (rule : Rule) :
    rule ∈ rulesOf lib context (intersectedEntries lib replaced globs requested requestedEntries
    grantedEntries context) ↔ rule ∈ rulesOf lib context
    (acceptedGrants lib replaced globs requested requestedEntries grantedEntries context) ∨
    rule ∈ rulesOf lib context (retainedDenials lib replaced globs requested requestedEntries
    grantedEntries context) := by
  rw [(represents_intersectedEntries).mem_rulesOf context, rulesOf_append, mem_append]

theorem mem_denials_of_retained {rule : Rule}
    (mem : rule ∈ rulesOf lib context (retainedDenials lib replaced globs requested
    requestedEntries grantedEntries context)) :
    rule ∈ rulesOf lib context (denials requestedEntries grantedEntries) := by
  refine rulesOf_subset (fun entry isIn => ?_) mem
  obtain ⟨inBoth, denies⟩ := mem_filter.mp isIn
  exact mem_filter.mpr ⟨inBoth, (Bool.and_eq_true _ _ ▸ denies).1⟩

include requestAt grantAt

section Accepted

variable {grant : Rule} (isOk : grant ∈ rulesOf lib context
  (acceptedGrants lib replaced globs requested requestedEntries grantedEntries context))

include isOk

theorem covered_of_accepted :
    grant.2 ≠ .deny ∧ Covered lib context requestedEntries grant.2 grant.1 ∧
    grant ∈ rulesOf lib context grantedEntries := by
  obtain ⟨entry, isIn, path, stands, mode, loc, _⟩ :=
    exists_entry_of_mem_rulesOf (allStand_filter grantAt _) isOk
  obtain ⟨grants, _, _, place, placeLoc, covered⟩ :=
    (within_iff_covered requestAt stands).mp
    (mem_filter.mp isIn).2
  cases loc.symm.trans placeLoc
  rw [mode] at grants covered
  exact ⟨grants, covered, rulesOf_subset (fun _ mem => mem_of_mem_filter mem) isOk⟩

omit isOk in
theorem areLexical_acceptedGrants : AreLexical lib context
    (acceptedGrants lib replaced globs requested requestedEntries grantedEntries context) := by
  intro resolved mem
  obtain ⟨entry, isIn, isResolved⟩ :=
    mem_resolvedEntries_restrictedTo.mp mem
  obtain ⟨path, stands⟩ := allStand_filter grantAt _ entry isIn
  obtain ⟨_, _, _, place, loc, _⟩ := (within_iff_covered requestAt stands).mp (mem_filter.mp isIn).2
  obtain ⟨isPath, _, _⟩ := mem_resolvedEntry.mp isResolved
  rw [stands.resolved] at isPath
  rw [mem_singleton.mp isPath, loc]
  exact .inr rfl

theorem exists_listed_of_accepted :
    ∃ entry ∈ (acceptedGrants lib replaced globs requested requestedEntries grantedEntries
    context).foldl (pushNew lib) [],
    ∃ path, StandsFor lib context entry path ∧ entry.access ≠ .deny ∧
    location lib path = some grant.1 := by
  have represents := represents_foldl_pushNew lib
    (acceptedGrants lib replaced globs requested requestedEntries grantedEntries context) []
  have grants := (covered_of_accepted requestAt grantAt isOk).1
  have listed := (represents.mem_rulesOf context grant).mpr isOk
  obtain ⟨entry, isIn, path, stands, access, loc, _⟩ :=
    exists_entry_of_mem_rulesOf (fun entry isIn => allStand_filter grantAt _ entry
      (represents.subset entry isIn)) listed
  exact ⟨entry, isIn, path, stands, by rwa [access], loc⟩

theorem mem_retained_of_covering {denial : Rule} {place : Location}
    (mem : denial ∈ rulesOf lib context (denials requestedEntries grantedEntries))
    (covers : place.Within grant.1) (denialCovers : place.Within denial.1) :
    denial ∈ rulesOf lib context (retainedDenials lib replaced globs requested requestedEntries
    grantedEntries context) := by
  obtain ⟨entry, isIn, path, stands, mode, loc, conv⟩ :=
    exists_entry_of_mem_rulesOf (allStand_filter (allStand_append requestAt grantAt) _) mem
  obtain ⟨listed, listedInside, listedPath, listedStands, grants, listedLocated⟩ :=
    exists_listed_of_accepted requestAt grantAt isOk
  have overlap := pathsOverlap_of_common loc listedLocated denialCovers covers
  have constrains := constrains_of_pathsOverlap stands
    listedStands listedInside grants overlap
  obtain ⟨inBoth, denies⟩ := mem_filter.mp isIn
  have kept := mem_rulesOf_of_entry (retainedDenials lib replaced globs requested
    requestedEntries grantedEntries context) entry path denial.1
    (mem_filter.mpr ⟨inBoth, by rw [denies, constrains]; rfl⟩) stands loc conv
  rwa [mode] at kept

/-- With an accepted grant, the intersection is ambiguous only through an ambiguous denial. -/
theorem areLexical_intersectedEntries_iff :
    AreLexical lib context (intersectedEntries lib replaced globs requested requestedEntries
    grantedEntries context) ↔ AreLexical lib context (denials requestedEntries grantedEntries) := by
  rw [(represents_intersectedEntries).areLexical_iff context, areLexical_append,
    and_iff_right (areLexical_acceptedGrants requestAt grantAt)]
  obtain ⟨listed, listedInside, listedPath, listedStands, grants, _⟩ :=
    exists_listed_of_accepted requestAt grantAt isOk
  constructor
  · intro lex resolved mem
    obtain ⟨entry, isIn, isResolved⟩ :=
      mem_resolvedEntries_restrictedTo.mp mem
    cases loc : location lib resolved.1 with
    | some place => exact .inr rfl
    | none =>
      obtain ⟨path, stands⟩ := allStand_filter (allStand_append requestAt grantAt) _ entry isIn
      have isPath := (mem_resolvedEntry.mp isResolved).1
      rw [stands.resolved] at isPath
      rw [mem_singleton.mp isPath] at loc
      have constrains := constrains_of_pathsOverlap
        stands listedStands listedInside grants
        (pathsOverlap_of_ambiguous path listedPath loc)
      obtain ⟨inBoth, denies⟩ := mem_filter.mp isIn
      have kind := lex resolved (mem_resolvedEntries_restrictedTo.mpr
        ⟨entry, mem_filter.mpr ⟨inBoth, by rw [denies, constrains]; rfl⟩, isResolved⟩)
      rw [mem_singleton.mp isPath, loc] at kind
      rwa [mem_singleton.mp isPath]
  · intro lex resolved mem
    refine lex resolved (resolvedEntries_subset lib context ?_ resolved mem)
    intro entry isIn
    obtain ⟨inBoth, denies⟩ := mem_filter.mp isIn
    exact mem_filter.mpr ⟨inBoth, (Bool.and_eq_true _ _ ▸ denies).1⟩

theorem governs_intersectedEntries_iff (place : Location) :
    Governs (rulesOf lib context (intersectedEntries lib replaced globs requested requestedEntries
    grantedEntries context)) place grant ↔ Governs (rulesOf lib context
    (acceptedGrants lib replaced globs requested requestedEntries grantedEntries context ++
    denials requestedEntries grantedEntries)) place grant := by
  have members := @mem_intersectedEntries_iff lib replaced globs requested requestedEntries
    grantedEntries context
  rw [rulesOf_append]
  constructor
  · intro gov
    refine ⟨mem_append_left _ isOk, gov.covers, fun other mem covers => ?_⟩
    refine gov.greatest other ((members other).mpr ?_) covers
    rcases mem_append.mp mem with inAccepted | inDenials
    · exact .inl inAccepted
    · exact .inr (mem_retained_of_covering requestAt grantAt isOk inDenials gov.covers covers)
  · intro gov
    refine gov.of_subset ((members grant).mpr (.inl isOk)) fun other mem => ?_
    rcases (members other).mp mem with inAccepted | inRetained
    · exact mem_append_left _ inAccepted
    · exact mem_append_right _ (mem_denials_of_retained inRetained)

end Accepted

theorem resolveAccess_intersectedEntries (path : PathUri) (place : Location)
    (found : isResolvable lib context path = true) (loc : location lib path = some place) :
    (∃ grant, Decides lib replaced globs requested requestedEntries grantedEntries context place
    grant ∧ resolveAccess lib (restrictedTo (intersectedEntries lib replaced globs requested
    requestedEntries grantedEntries context)) path context = grant.2) ∨
    resolveAccess lib (restrictedTo (intersectedEntries lib replaced globs requested
    requestedEntries grantedEntries context)) path context = .deny ∧
    ∀ grant, ¬ Decides lib replaced globs requested requestedEntries grantedEntries context
    place grant := by
  have decided := givesAccess_resolveAccess (restrictedTo (intersectedEntries lib replaced
    globs requested requestedEntries grantedEntries context)) rfl found
    loc
  by_cases decides : ∃ grant, Decides lib replaced globs requested requestedEntries
    grantedEntries context place grant
  · obtain ⟨grant, decides⟩ := decides
    refine .inl ⟨grant, decides, ?_⟩
    have lexical := (areLexical_intersectedEntries_iff requestAt grantAt
      decides.accepted).mpr decides.lexical
    have governs := (governs_intersectedEntries_iff requestAt grantAt decides.accepted
      place).mpr decides.governs
    exact (decided lexical).unique (.inl ⟨grant, governs, rfl⟩)
  · refine .inr ⟨?_, not_exists.mp decides⟩
    by_cases lexical : AreLexical lib context (intersectedEntries lib replaced globs requested
      requestedEntries grantedEntries context)
    · rcases decided lexical with ⟨rule, governs, given⟩ | ⟨denied, _⟩
      · rcases (mem_intersectedEntries_iff rule).mp governs.mem with accepted | retained
        · refine absurd ⟨rule, ?_, accepted, ?_⟩ decides
          · exact (areLexical_intersectedEntries_iff requestAt grantAt accepted).mp lexical
          · exact (governs_intersectedEntries_iff requestAt grantAt accepted place).mp governs
        · rw [← given]
          exact access_of_mem_denials rule (mem_denials_of_retained retained)
      · exact denied
    · exact resolveAccess_of_ambiguous path rfl lexical

/-! ## Comparison with the request and the grant -/

omit requestAt grantAt in
theorem mem_denials_of_mem
    (subset : ∀ entry ∈ entries, entry ∈ requestedEntries ++ grantedEntries) {rule : Rule}
    (mem : rule ∈ rulesOf lib context entries) (denies : rule.2 = .deny) :
    rule ∈ rulesOf lib context (denials requestedEntries grantedEntries) := by
  obtain ⟨root, isIn, loc⟩ := mem_rules.mp mem
  obtain ⟨entry, entryMem, resolved⟩ :=
    mem_resolvedEntries_restrictedTo.mp isIn
  obtain ⟨_, _, mode⟩ := mem_resolvedEntry.mp resolved
  refine mem_rules.mpr ⟨root, ?_, loc⟩
  exact mem_resolvedEntries_restrictedTo.mpr ⟨entry, mem_filter.mpr
    ⟨subset entry entryMem, beq_iff_eq.mpr (mode.symm.trans denies)⟩, resolved⟩

omit requestAt grantAt in
theorem Decides.depth_le {place : Location} {grant denial : Rule}
    (decides : Decides lib replaced globs requested requestedEntries grantedEntries context place
    grant) (mem : denial ∈ rulesOf lib context (denials requestedEntries grantedEntries))
    (covers : place.Within denial.1) : denial.1.depth ≤ grant.1.depth := by
  have inBoth := mem_append_right (rulesOf lib context (acceptedGrants lib replaced globs
    requested requestedEntries grantedEntries context)) mem
  rw [← rulesOf_append] at inBoth
  exact (decides.governs.greatest denial inBoth covers).depth_le

theorem Decides.requested_governs {place below : Location} {grant : Rule}
    (decides : Decides lib replaced globs requested requestedEntries grantedEntries context below
    grant) (within : below.Within place) (placeWithin : place.Within grant.1) :
    ∃ narrow, Governs (rulesOf lib context requestedEntries) place narrow ∧ narrow.2 ≠ .deny := by
  obtain ⟨_, covered, _⟩ := covered_of_accepted requestAt grantAt decides.accepted
  obtain ⟨rule, gov, covers⟩ := covered.governed
  obtain ⟨narrow, narrowGoverns⟩ := exists_governs
    ⟨rule, gov.mem, Location.Within.trans placeWithin gov.covers⟩
  refine ⟨narrow, narrowGoverns, fun denies => ?_⟩
  have inDenials := mem_denials_of_mem
    (fun entry mem => mem_append_left grantedEntries mem) narrowGoverns.mem denies
  have shallow := decides.depth_le inDenials (within.trans narrowGoverns.covers)
  have same := gov.eq_of_depth_le narrowGoverns placeWithin shallow
  rw [← same, denies, accessCovers_deny] at covers
  cases covers

variable (lib replaced globs requested requestedEntries grantedEntries context) in
structure ReadsUnrequestedRoot (place : Location) : Prop where
  windows : PathUri.inferPathConvention context.cwd = some .windows
  notRequested : ∀ entry ∈ requested.entries, isRootEntry entry = true → entry.access = .deny
  reads : ∃ narrow, Governs (rulesOf lib context grantedEntries) place narrow ∧
    narrow.2 = .read ∧ IsRootPlace lib context narrow.1

omit requestAt grantAt in
theorem isResolvable_of_located {path other : PathUri} {place : Location}
    (found : isResolvable lib context path = true) (loc : location lib other = some place)
    (conv : inferPathConvention other = inferPathConvention context.cwd) :
    isResolvable lib context other = true := by
  unfold isResolvable at found ⊢
  cases infer : inferPathConvention context.cwd with
  | none => simp [infer] at found
  | some cwdConvention =>
    simp only [infer, Bool.and_eq_true, beq_iff_eq] at found ⊢
    exact ⟨⟨conv.trans infer, by rw [lexicalDepth_eq, loc]; rfl⟩,
      found.2⟩

/-- A granted read below a deciding write is accepted, unless it is the root on Windows. -/
theorem Decides.covered_read {place narrow : Location} {grant : Rule}
    (decides : Decides lib replaced globs requested requestedEntries grantedEntries context place
    grant) (within : place.Within narrow) (narrowWithin : narrow.Within grant.1) :
    Covered lib context requestedEntries .read narrow := by
  obtain ⟨_, covered, _⟩ := covered_of_accepted requestAt grantAt decides.accepted
  refine ⟨covered.lexical, ?_, fun rule mem denies ruleCovers => ?_⟩
  · obtain ⟨rule, governs, allows⟩ :=
      decides.requested_governs requestAt grantAt within narrowWithin
    exact ⟨rule, governs, by simpa [accessCovers, canRead] using allows⟩
  · have inDenials := mem_denials_of_mem
      (fun entry mem => mem_append_left grantedEntries mem) mem denies
    have shallow := decides.depth_le inDenials (within.trans ruleCovers)
    exact covered.notDenied rule mem denies
      ((within.trans ruleCovers).of_depth_le decides.governs.covers shallow)

theorem Decides.granted_governs {place : Location} {grant : Rule} (path : PathUri)
    (found : isResolvable lib context path = true)
    (decides : Decides lib replaced globs requested requestedEntries grantedEntries context place
    grant) :
    ∃ narrow, Governs (rulesOf lib context grantedEntries) place narrow ∧ narrow.2 ≠ .deny ∧
    (grant.2 = .write → narrow.2 = .read →
    ReadsUnrequestedRoot lib requested grantedEntries context place) := by
  obtain ⟨grants, covered, inGranted⟩ :=
    covered_of_accepted requestAt grantAt decides.accepted
  obtain ⟨narrow, governs⟩ := exists_governs ⟨grant, inGranted, decides.governs.covers⟩
  have below := governs.greatest grant inGranted decides.governs.covers
  refine ⟨narrow, governs, fun denies => ?_, fun writes reads => ?_⟩
  · have inDenials := mem_denials_of_mem
      (fun entry mem => mem_append_right requestedEntries mem) governs.mem denies
    have inBoth := mem_append_right (rulesOf lib context (acceptedGrants lib replaced globs
      requested requestedEntries grantedEntries context)) inDenials
    rw [← rulesOf_append] at inBoth
    have same := (decides.governs.greatest narrow inBoth governs.covers).antisymm below
    exact grants ((congrArg Prod.snd same).symm.trans denies)
  · have narrowWithin : narrow.1.Within grant.1 :=
      decides.governs.covers.of_depth_le governs.covers below.depth_le
    obtain ⟨entry, isIn, narrowPath, stands, mode, loc, conv⟩ :=
      exists_entry_of_mem_rulesOf grantAt governs.mem
    have covered := decides.covered_read requestAt grantAt governs.covers narrowWithin
    have narrowResolvable := isResolvable_of_located found loc conv
    rw [← reads, ← mode] at covered
    by_contra unnamed
    have accepted : entry ∈ acceptedGrants lib replaced globs requested requestedEntries
        grantedEntries context := by
      refine mem_filter.mpr ⟨isIn, (within_iff_covered requestAt stands).mpr
        ⟨by rw [mode, reads]; decide, fun rootless => unnamed ?_, narrowResolvable, narrow.1,
          loc, covered⟩⟩
      refine ⟨rootless.1, fun other mem isRoot => ?_, narrow, governs, reads, narrowPath, ?_, loc⟩
      · have bare := rootless.2.2 other mem isRoot
        rw [mode, reads] at bare
        simpa [accessCovers, canRead] using bare
      · have isRoot : entry.path = .special .root := beq_iff_eq.mp rootless.2.1
        have target := stands.permissionPath
        rwa [isRoot] at target
    have inAccepted := mem_rulesOf_of_entry _ entry narrowPath narrow.1 accepted stands loc conv
    rw [mode] at inAccepted
    have inBoth := mem_append_left
      (rulesOf lib context (denials requestedEntries grantedEntries)) inAccepted
    rw [← rulesOf_append] at inBoth
    have same := (decides.governs.greatest narrow inBoth governs.covers).antisymm below
    have sameAccess : narrow.2 = grant.2 :=
      congrArg (fun pair : Nat × FileSystemAccessMode => pair.2) same
    rw [reads, writes] at sameAccess
    cases sameAccess

end Intersection

/-! ## Profiles -/

variable (profile : AdditionalPermissionProfile)

def AdditionalPermissionProfile.fileSystemEntries : List FileSystemSandboxEntry :=
  match profile.fileSystem with
  | some fileSystem => fileSystem.entries
  | none => []

def AdditionalPermissionProfile.hasNetworkAccess : Bool :=
  profile.network == some ⟨some true⟩

/-- An accepted grant decides about the path although the granted entries are ambiguous, or an
accepted write decides about it although the request reads it only, or the grant does so by the
root of a Windows file system that the request does not name. -/
def ExceedsAt (requested granted : AdditionalPermissionProfile)
    (context : FileSystemSandboxPolicyContext) (path : PathUri) : Prop :=
  ∃ requestedFileSystem requestedEntries grantedEntries place grant,
    requested.fileSystem = some requestedFileSystem ∧
    materializeContextDependentEntries lib replaced context requestedFileSystem.entries =
      some requestedEntries ∧
    materializeContextDependentEntries lib replaced context granted.fileSystemEntries =
      some grantedEntries ∧
    isResolvable lib context path = true ∧ PathUri.location lib path = some place ∧
    Decides lib replaced globs requestedFileSystem requestedEntries grantedEntries context place
      grant ∧
    (¬ AreLexical lib context grantedEntries ∨
      grant.2 = .write ∧
        ((∃ narrow, Governs (rulesOf lib context requestedEntries) place narrow ∧
            narrow.2 = .read) ∨
          ReadsUnrequestedRoot lib requestedFileSystem grantedEntries context place))

theorem breadth_le_iff_of_ne_deny (first second : FileSystemAccessMode) (allows : second ≠ .deny) :
    first.breadth ≤ second.breadth ↔ ¬ (first = .write ∧ second = .read) := by
  cases first <;> cases second <;> simp [breadth] at allows ⊢

variable {lib} in
theorem intersectedEntries_within_iff (requested : FileSystemPermissions)
    {requestedEntries grantedEntries : List FileSystemSandboxEntry}
    {context : FileSystemSandboxPolicyContext} (path : PathUri)
    (requestStands : AllStand lib context requestedEntries)
    (grantStands : AllStand lib context grantedEntries) :
    (resolveAccess lib (restrictedTo (intersectedEntries lib replaced globs requested
    requestedEntries grantedEntries context)) path context).breadth ≤
    (resolveAccess lib (restrictedTo requestedEntries) path context).breadth ∧
    (resolveAccess lib (restrictedTo (intersectedEntries lib replaced globs requested
    requestedEntries grantedEntries context)) path context).breadth ≤
    (resolveAccess lib (restrictedTo grantedEntries) path context).breadth ↔
    ¬ ∃ place grant, isResolvable lib context path = true ∧ location lib path = some place ∧
    Decides lib replaced globs requested requestedEntries grantedEntries context place grant ∧
    (¬ AreLexical lib context grantedEntries ∨ grant.2 = .write ∧
    ((∃ narrow, Governs (rulesOf lib context requestedEntries) place narrow ∧ narrow.2 = .read) ∨
    ReadsUnrequestedRoot lib requested grantedEntries context place)) := by
  cases found : isResolvable lib context path with
  | false =>
    rw [resolveAccess_of_not_resolvable rfl found]
    simp [breadth]
  | true =>
    obtain ⟨place, loc⟩ := location_of_resolvable found
    simp only [loc, Option.some.injEq, true_and, exists_eq_left', exists_and_left]
    rcases resolveAccess_intersectedEntries requestStands grantStands path place found loc with
      ⟨grant, decides, given⟩ | ⟨denied, undecided⟩
    · rw [given]
      obtain ⟨grants, covered, _⟩ :=
        covered_of_accepted requestStands grantStands decides.accepted
      obtain ⟨narrow, governs, allows⟩ := decides.requested_governs requestStands grantStands
        (Location.Within.refl place) decides.governs.covers
      have requestedAccess := (givesAccess_resolveAccess (restrictedTo requestedEntries) rfl
        found loc covered.lexical).unique (.inl ⟨narrow, governs, rfl⟩)
      rw [requestedAccess, breadth_le_iff_of_ne_deny _ _ allows]
      have unique : ∀ other, Decides lib replaced globs requested requestedEntries
          grantedEntries context place other → other = grant :=
        fun other otherDecides => otherDecides.governs.unique decides.governs
      by_cases lexical : AreLexical lib context grantedEntries
      · obtain ⟨grantedNarrow, grantedGoverns, grantedAllows, grantedReads⟩ :=
          decides.granted_governs requestStands grantStands path found
        have grantedAccess := (givesAccess_resolveAccess (restrictedTo grantedEntries) rfl
          found loc lexical).unique (.inl ⟨grantedNarrow, grantedGoverns, rfl⟩)
        rw [grantedAccess, breadth_le_iff_of_ne_deny _ _ grantedAllows]
        constructor
        · rintro ⟨withinRequest, withinGrant⟩ ⟨other, otherDecides, notLexical | ⟨writes, reads⟩⟩
          · exact notLexical lexical
          · rw [unique other otherDecides] at writes
            rcases reads with ⟨otherNarrow, otherGov, otherReads⟩ | unrequested
            · rw [otherGov.unique governs] at otherReads
              exact withinRequest ⟨writes, otherReads⟩
            · obtain ⟨otherNarrow, otherGov, otherReads, _⟩ := unrequested.reads
              rw [otherGov.unique grantedGoverns] at otherReads
              exact withinGrant ⟨writes, otherReads⟩
        · intro within
          exact ⟨fun ⟨writes, reads⟩ => within ⟨grant, decides, .inr ⟨writes,
            Or.inl ⟨narrow, governs, reads⟩⟩⟩,
            fun ⟨writes, reads⟩ => within ⟨grant, decides, .inr ⟨writes,
            Or.inr (grantedReads writes reads)⟩⟩⟩
      · rw [resolveAccess_of_ambiguous path rfl lexical]
        refine iff_of_false (fun both => ?_) fun within =>
          within ⟨grant, decides, .inl lexical⟩
        cases mode : grant.2 with
        | read =>
          rw [mode] at both
          exact absurd both.2 (by decide)
        | write =>
          rw [mode] at both
          exact absurd both.2 (by decide)
        | deny => exact grants mode
    · rw [denied]
      refine iff_of_true ⟨Nat.zero_le _, Nat.zero_le _⟩ ?_
      rintro ⟨grant, decides, _⟩
      exact undecided grant decides

open AdditionalPermissionProfile

variable {lib replaced globs} in
theorem network_of_intersect {requested given : AdditionalPermissionProfile}
    {context : FileSystemSandboxPolicyContext}
    (hasNetwork : (intersectPermissionProfilesWithContext lib replaced globs requested given
    context).hasNetworkAccess = true) :
    requested.hasNetworkAccess = true ∧ given.hasNetworkAccess = true := by
  unfold hasNetworkAccess intersectPermissionProfilesWithContext at hasNetwork
  dsimp only at hasNetwork
  split at hasNetwork
  next both =>
    exact ⟨beq_iff_eq.mpr both.1, beq_iff_eq.mpr both.2⟩
  · cases hasNetwork

theorem fileSystemEntries_intersect (requested given : AdditionalPermissionProfile)
    (context : FileSystemSandboxPolicyContext) :
    (∃ requestedFileSystem requestedEntries grantedEntries,
    requested.fileSystem = some requestedFileSystem ∧
    materializeContextDependentEntries lib replaced context requestedFileSystem.entries =
    some requestedEntries ∧
    materializeContextDependentEntries lib replaced context given.fileSystemEntries =
    some grantedEntries ∧ (intersectPermissionProfilesWithContext lib replaced globs requested given
    context).fileSystemEntries =
    intersectedEntries lib replaced globs requestedFileSystem requestedEntries grantedEntries
    context) ∨ (intersectPermissionProfilesWithContext lib replaced globs requested given
    context).fileSystemEntries = [] ∧
    ∀ path, ¬ ExceedsAt lib replaced globs requested given context path := by
  have grantedEntriesOf : (given.fileSystem.getD ⟨[], none⟩).entries =
      given.fileSystemEntries := by
    unfold fileSystemEntries
    cases given.fileSystem with
    | _ => rfl
  cases requestedFound : requested.fileSystem with
  | none =>
    refine .inr ⟨?_, ?_⟩
    · simp [fileSystemEntries, intersectPermissionProfilesWithContext, requestedFound]
    · rintro path ⟨_, _, _, _, _, found, _⟩
      rw [requestedFound] at found
      cases found
  | some requestedFileSystem =>
    have entriesOf : ∀ res, intersectFileSystemPermissions lib replaced globs
        requestedFileSystem (given.fileSystem.getD ⟨[], none⟩) context = res →
        (intersectPermissionProfilesWithContext lib replaced globs requested given
          context).fileSystemEntries =
        (res.map FileSystemPermissions.entries).getD [] := by
      intro res found
      cases res with
      | none =>
        simp [fileSystemEntries, intersectPermissionProfilesWithContext, requestedFound, found]
      | some fileSystem =>
        by_cases empty : fileSystem.entries = []
        · simp [fileSystemEntries,
            intersectPermissionProfilesWithContext, requestedFound, found, Option.filter, empty]
        · simp [fileSystemEntries,
            intersectPermissionProfilesWithContext, requestedFound, found, Option.filter, empty]
    cases found : intersectFileSystemPermissions lib replaced globs requestedFileSystem
      (given.fileSystem.getD ⟨[], none⟩) context with
    | some res =>
      obtain ⟨requestedEntries, grantedEntries, requestedMat, grantedMat,
        entries⟩ := entries_of_intersect found
      rw [grantedEntriesOf] at grantedMat
      exact .inl ⟨requestedFileSystem, requestedEntries, grantedEntries, rfl,
        requestedMat, grantedMat, (entriesOf _ found).trans entries⟩
    | none =>
      refine .inr ⟨entriesOf _ found, ?_⟩
      rintro path ⟨other, requestedEntries, grantedEntries, _, _, same, requestedMat, grantedMat, _⟩
      rw [requestedFound] at same
      cases same
      simp [intersectFileSystemPermissions, requestedMat, grantedEntriesOf, grantedMat] at found

variable {lib} in
theorem resolveAccess_restrictedTo_congr {first second : List FileSystemSandboxEntry}
    {context : FileSystemSandboxPolicyContext} {path : PathUri}
    (same : resolvedEntries lib (restrictedTo first) context =
    resolvedEntries lib (restrictedTo second) context) :
    resolveAccess lib (restrictedTo first) path context =
    resolveAccess lib (restrictedTo second) path context := by
  unfold resolveAccess
  rw [same]
  rfl

/-- What is granted of a request gives a path no more than the request and the grant do, except
where an accepted grant exceeds one of them. -/
theorem intersection_within_iff (requested granted : AdditionalPermissionProfile)
    (context : FileSystemSandboxPolicyContext) (path : PathUri)
    (plainRequested : ∀ entry ∈ requested.fileSystemEntries, IsPlainEntry lib entry)
    (plainGranted : ∀ entry ∈ granted.fileSystemEntries, IsPlainEntry lib entry) :
    ((resolveAccess lib (restrictedTo (intersectPermissionProfilesWithContext lib replaced globs
          requested granted context).fileSystemEntries) path context).breadth ≤
        (resolveAccess lib (restrictedTo requested.fileSystemEntries) path context).breadth ∧
      (resolveAccess lib (restrictedTo (intersectPermissionProfilesWithContext lib replaced globs
          requested granted context).fileSystemEntries) path context).breadth ≤
        (resolveAccess lib (restrictedTo granted.fileSystemEntries) path context).breadth ∧
      ((intersectPermissionProfilesWithContext lib replaced globs requested granted
          context).hasNetworkAccess = true →
        requested.hasNetworkAccess = true ∧ granted.hasNetworkAccess = true)) ↔
      ¬ ExceedsAt lib replaced globs requested granted context path := by
  rcases fileSystemEntries_intersect lib replaced globs requested granted context with
    ⟨requestedFileSystem, requestedEntries, grantedEntries, requestedFound,
      requestedMaterialized, grantedMaterialized, entries⟩ | ⟨empty, notExceeds⟩
  · have requestedEntriesOf : requested.fileSystemEntries = requestedFileSystem.entries := by
      simp [fileSystemEntries, requestedFound]
    rw [requestedEntriesOf] at plainRequested
    obtain ⟨requestStands, requestResolved⟩ := materializedEntries_spec lib replaced context _
      requestedEntries plainRequested requestedMaterialized
    obtain ⟨grantStands, grantResolved⟩ := materializedEntries_spec lib replaced context _
      grantedEntries plainGranted grantedMaterialized
    have within := intersectedEntries_within_iff replaced globs requestedFileSystem path
      requestStands grantStands
    rw [entries, requestedEntriesOf, ← resolveAccess_restrictedTo_congr requestResolved,
      ← resolveAccess_restrictedTo_congr grantResolved, ← and_assoc,
      and_iff_left (network_of_intersect), within]
    refine not_congr ⟨?_, ?_⟩
    · rintro ⟨place, grant, exceeds⟩
      exact ⟨requestedFileSystem, requestedEntries, grantedEntries, place, grant, requestedFound,
        requestedMaterialized, grantedMaterialized, exceeds⟩
    · rintro ⟨other, otherRequested, otherGranted, place, grant, found, otherMaterialized,
        otherGrantedMaterialized, exceeds⟩
      cases requestedFound.symm.trans found
      cases requestedMaterialized.symm.trans otherMaterialized
      cases grantedMaterialized.symm.trans otherGrantedMaterialized
      exact ⟨place, grant, exceeds⟩
  · rw [empty, resolveAccess_restrictedTo_nil]
    exact iff_of_true ⟨Nat.zero_le _, Nat.zero_le _, network_of_intersect⟩ (notExceeds path)

def wholeDirectory (access : FileSystemAccessMode) : AdditionalPermissionProfile :=
  ⟨none, some ⟨[⟨.path (.file ⟨none, ["a".toList]⟩), access, none⟩], none⟩⟩

def directoryWithReadOnlyPart : AdditionalPermissionProfile :=
  ⟨none, some ⟨[⟨.path (.file ⟨none, ["a".toList]⟩), .write, none⟩,
    ⟨.path (.file ⟨none, ["a".toList, "b".toList]⟩), .read, none⟩], none⟩⟩

/-- Of a requested write only a read is granted. -/
theorem granted_read_stays_within_grant :
    (resolveAccess PercentEncoding.urlLibrary (restrictedTo (intersectPermissionProfilesWithContext
          PercentEncoding.urlLibrary (fun _ => []) (fun _ _ => none) (wholeDirectory .write)
          (wholeDirectory .read) workspaceContext).fileSystemEntries)
        (.file ⟨none, ["a".toList, "b".toList]⟩) workspaceContext).breadth ≤
      (resolveAccess PercentEncoding.urlLibrary
        (restrictedTo (wholeDirectory .read).fileSystemEntries)
        (.file ⟨none, ["a".toList, "b".toList]⟩) workspaceContext).breadth := by
  refine ((intersection_within_iff urlLibrary (fun _ => []) (fun _ _ => none)
    (wholeDirectory .write) (wholeDirectory .read) workspaceContext
    (.file ⟨none, ["a".toList, "b".toList]⟩) (by decide) (by decide)).mpr ?_).2.1
  rintro ⟨_, _, grantedEntries, place, grant, _, _, grantedMaterialized, _, _, decides, exceeds⟩
  have materialized : materializeContextDependentEntries urlLibrary (fun _ => [])
    workspaceContext (wholeDirectory .read).fileSystemEntries =
    some (wholeDirectory .read).fileSystemEntries := by decide
  cases materialized.symm.trans grantedMaterialized
  have lexical : AreLexical urlLibrary workspaceContext
      (wholeDirectory .read).fileSystemEntries := by
    unfold AreLexical HasLexicalRoots
    decide
  have reads : ∀ rule ∈ rulesOf urlLibrary workspaceContext
    (wholeDirectory .read).fileSystemEntries, rule.2 = .read := by decide
  have isRead := reads grant (rulesOf_subset
    (fun entry mem => mem_of_mem_filter mem) decides.accepted)
  rcases exceeds with notLexical | ⟨writes, _⟩
  · exact notLexical lexical
  · rw [isRead] at writes
    cases writes

/-- The requested read of a part is dropped, and the part can be written. -/
theorem requested_read_below_write_is_dropped :
    (∀ entry ∈ directoryWithReadOnlyPart.fileSystemEntries,
        IsPlainEntry PercentEncoding.urlLibrary entry) ∧
      (∀ entry ∈ (wholeDirectory .write).fileSystemEntries,
        IsPlainEntry PercentEncoding.urlLibrary entry) ∧
      resolveAccess PercentEncoding.urlLibrary (restrictedTo
        (intersectPermissionProfilesWithContext PercentEncoding.urlLibrary (fun _ => [])
          (fun _ _ => none) directoryWithReadOnlyPart (wholeDirectory .write)
          workspaceContext).fileSystemEntries)
        (.file ⟨none, ["a".toList, "b".toList]⟩) workspaceContext = .write ∧
      resolveAccess PercentEncoding.urlLibrary
        (restrictedTo directoryWithReadOnlyPart.fileSystemEntries)
        (.file ⟨none, ["a".toList, "b".toList]⟩) workspaceContext = .read := by
  decide

end

end CodexFormal.Sandboxing
