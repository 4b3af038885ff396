import CodexFormal.Sandboxing.Intersect

/-!
# Materialized entries

Entries for plain paths, the workspace roots and the root are replaced by
entries for one path each, which resolve to the same paths.  A list that drops
entries equal to earlier ones has the same rules.
-/

set_option autoImplicit false

namespace CodexFormal.Sandboxing

open Foundation Permissions Uri List PathUri Option
open Permissions.FileSystemSandboxPolicy
open Patch (Text)

section

variable (lib : UrlLibrary) (replaced : Bytes → Text)

/-- A lexically plain POSIX path, the workspace roots, or the root. -/
def IsPlainEntry (entry : FileSystemSandboxEntry) : Prop :=
  match entry.path with
  | .path path =>
    PathUri.inferPathConvention path = some .posix ∧ (PathUri.lexicalDepth lib path).isSome = true
  | .special .root => True
  | .special (.projectRoots _) => True
  | _ => False

instance : DecidablePred (IsPlainEntry lib) := by
  intro entry
  unfold IsPlainEntry
  split <;> infer_instance

/-- The entry resolves to one path. -/
structure StandsFor (context : FileSystemSandboxPolicyContext) (entry : FileSystemSandboxEntry)
    (path : PathUri) : Prop where
  permissionPath : resolvePermissionPath lib context entry.path = some path
  resolved : resolvedPaths lib context entry.path = [path]
  shape : entry.path = .path path ∨ entry.path = .special .root

variable (context : FileSystemSandboxPolicyContext) (entries : List FileSystemSandboxEntry)

/-- Every entry resolves to one path. -/
def AllStand : Prop :=
  ∀ entry ∈ entries, ∃ path, StandsFor lib context entry path

def rulesOf : List Rule :=
  rules lib (resolvedEntries lib (restrictedTo entries) context)

def AreLexical : Prop :=
  HasLexicalRoots lib (resolvedEntries lib (restrictedTo entries) context)

variable (entry : FileSystemSandboxEntry)

theorem standsFor_materializedPathEntry (path : PathUri) :
    StandsFor lib context (materializedPathEntry entry path) path :=
  ⟨rfl, rfl, .inl rfl⟩

/-- The place of a workspace root's subpath. -/
def workspacePath (subpath : Option Text) (root : PathUri) : Option PathUri :=
  match subpath with
  | some subpath => (PathUri.join lib root subpath).toOption
  | none => some root

theorem materializedRoots_eq_some (sub : Option Text)
    (isRoots : entry.path = .special (.projectRoots sub)) (roots : List PathUri)
    (mat : List FileSystemSandboxEntry)
    (found : materializedRoots lib context entry roots = some mat) : mat =
    (roots.filterMap (workspacePath lib sub)).map (materializedPathEntry entry) := by
  induction roots generalizing mat with
  | nil =>
    cases found
    rfl
  | cons root rest ih =>
    have atRoot : resolvePermissionPath lib { context with workspaceRoots := [root] }
        entry.path = workspacePath lib sub root := by
      rw [isRoots]
      rfl
    simp only [materializedRoots, atRoot] at found
    cases target : workspacePath lib sub root with
    | none =>
      rw [target] at found
      rw [filterMap_cons_none target]
      dsimp only at found
      split at found
      · cases found
      · exact ih mat found
    | some path =>
      rw [target] at found
      obtain ⟨more, restFound, rfl⟩ := map_eq_some_iff.mp found
      rw [filterMap_cons_some target, map_cons, ih more restFound]

theorem resolvedEntry_materializedPathEntry (paths : List PathUri) :
    (paths.map (materializedPathEntry entry)).flatMap (resolvedEntry lib context) =
    (paths.filter fun path => inferPathConvention path == inferPathConvention context.cwd).map
    fun path => (path, entry.access) := by
  induction paths with
  | nil => rfl
  | cons path rest ih =>
    rw [map_cons, flatMap_cons, ih, filter_cons]
    simp only [resolvedEntry, materializedPathEntry, resolvedPaths, filter_cons, filter_nil]
    split
    · rfl
    · rfl

theorem materializedEntry_spec (mat : List FileSystemSandboxEntry) (plain : IsPlainEntry lib entry)
    (found : materializeContextDependentEntry lib replaced context entry = some mat) :
    AllStand lib context mat ∧
    mat.flatMap (resolvedEntry lib context) = resolvedEntry lib context entry := by
  have alone : ∀ path, StandsFor lib context entry path → AllStand lib context [entry] := by
    intro path stands other mem
    cases mem_singleton.mp mem
    exact ⟨path, stands⟩
  unfold IsPlainEntry at plain
  cases shape : entry.path with
  | path path =>
    simp only [materializeContextDependentEntry, materializeCwdDependentEntry, shape] at found
    cases found
    refine ⟨alone path ⟨?_, ?_, .inl shape⟩, append_nil _⟩
    · rw [shape]
      rfl
    · rw [shape]
      rfl
  | globPattern pat => simp [shape] at plain
  | special value =>
    cases value with
    | root =>
      simp only [materializeContextDependentEntry, shape] at found
      obtain ⟨root, rootFound, rfl⟩ := map_eq_some_iff.mp found
      refine ⟨alone root ⟨?_, ?_, .inr shape⟩, append_nil _⟩
      · rw [shape]
        exact rootFound
      · rw [shape]
        simp only [resolvePermissionPath] at rootFound
        simp [resolvedPaths, rootFound]
    | projectRoots sub =>
      simp only [materializeContextDependentEntry, shape] at found
      obtain ⟨resolved, rootsFound, found⟩ := bind_eq_some_iff.mp found
      split at found
      · cases found
      · cases found
        rw [materializedRoots_eq_some lib context entry sub shape _ _ rootsFound]
        refine ⟨?_, ?_⟩
        · intro other mem
          obtain ⟨path, _, rfl⟩ := mem_map.mp mem
          exact ⟨path, standsFor_materializedPathEntry lib context entry path⟩
        · rw [resolvedEntry_materializedPathEntry]
          cases sub with
          | none =>
            unfold resolvedEntry
            rw [shape]
            rfl
          | some sub =>
            unfold resolvedEntry
            rw [shape]
            rfl
    | _ => simp [shape] at plain

theorem materializedEntries_spec (entries mat : List FileSystemSandboxEntry)
    (plain : ∀ entry ∈ entries, IsPlainEntry lib entry)
    (found : materializeContextDependentEntries lib replaced context entries = some mat) :
    AllStand lib context mat ∧ resolvedEntries lib (restrictedTo mat) context =
    resolvedEntries lib (restrictedTo entries) context := by
  induction entries generalizing mat with
  | nil =>
    cases found
    exact ⟨fun _ mem => absurd mem not_mem_nil, rfl⟩
  | cons entry rest ih =>
    obtain ⟨first, firstFound, found⟩ := bind_eq_some_iff.mp found
    obtain ⟨more, restFound, rfl⟩ := map_eq_some_iff.mp found
    obtain ⟨firstStands, firstResolved⟩ := materializedEntry_spec lib replaced context entry first
      (plain entry (mem_cons_self ..)) firstFound
    obtain ⟨restStands, restResolved⟩ := ih more
      (fun other mem => plain other (mem_cons_of_mem _ mem)) restFound
    refine ⟨?_, ?_⟩
    · intro other mem
      rcases mem_append.mp mem with inFirst | inRest
      · exact firstStands other inFirst
      · exact restStands other inRest
    · simp only [resolvedEntries, restrictedTo, flatMap_append, flatMap_cons] at restResolved ⊢
      rw [firstResolved, restResolved]

theorem sameEntry_refl : sameEntry lib entry entry = true := by
  obtain ⟨path, mode, behavior⟩ := entry
  cases path with
  | path path => simp [sameEntry, samePath, eqUri]
  | _ => simp [sameEntry, samePath]

theorem resolvedEntry_of_sameEntry
    (entry other : FileSystemSandboxEntry) (same : sameEntry lib other entry = true)
    (resolved : PathUri × FileSystemAccessMode) (mem : resolved ∈ resolvedEntry lib context entry) :
    ∃ root, (root, resolved.2) ∈ resolvedEntry lib context other ∧
    eqUri lib root resolved.1 = true := by
  obtain ⟨path, mode, behavior⟩ := entry
  obtain ⟨otherPath, otherAccess, otherBehavior⟩ := other
  obtain ⟨isIn, conv, rfl⟩ := mem_resolvedEntry.mp mem
  simp only [sameEntry, Bool.and_eq_true, beq_iff_eq] at same
  obtain ⟨⟨samePaths, rfl⟩, _⟩ := same
  cases path with
  | path path =>
    cases otherPath with
    | path otherPath =>
      cases mem_singleton.mp isIn
      refine ⟨otherPath, mem_resolvedEntry.mpr ⟨mem_singleton.mpr rfl, ?_, rfl⟩, samePaths⟩
      exact (inferPathConvention_eq_of_eqUri lib _ _ samePaths).trans conv
    | _ => cases samePaths
  | globPattern pat => cases isIn
  | special value =>
    cases otherPath with
    | special otherValue =>
      cases beq_iff_eq.mp samePaths
      exact ⟨resolved.1, mem_resolvedEntry.mpr ⟨isIn, conv, rfl⟩, by simp [eqUri]⟩
    | _ => cases samePaths

/-- The entries of the second list are, up to spelling, those of the first. -/
structure Represents (entries all : List FileSystemSandboxEntry) : Prop where
  subset : ∀ entry ∈ entries, entry ∈ all
  present : ∀ entry ∈ all, ∃ other ∈ entries, sameEntry lib other entry = true

variable {lib context} in
theorem mem_resolvedEntries_restrictedTo
    {entries : List FileSystemSandboxEntry} {resolved : PathUri × FileSystemAccessMode} :
    resolved ∈ resolvedEntries lib (restrictedTo entries) context ↔
    ∃ entry ∈ entries, resolved ∈ resolvedEntry lib context entry := by
  simp [resolvedEntries, restrictedTo]

theorem Represents.resolved {lib : UrlLibrary} {entries all : List FileSystemSandboxEntry}
    (represents : Represents lib entries all) (context : FileSystemSandboxPolicyContext)
    (resolved : PathUri × FileSystemAccessMode)
    (mem : resolved ∈ resolvedEntries lib (restrictedTo all) context) :
    ∃ root, (root, resolved.2) ∈ resolvedEntries lib (restrictedTo entries) context ∧
    eqUri lib root resolved.1 = true := by
  obtain ⟨entry, isIn, mem⟩ := mem_resolvedEntries_restrictedTo.mp mem
  obtain ⟨other, otherInside, same⟩ := represents.present entry isIn
  obtain ⟨root, found, sameRoot⟩ :=
    resolvedEntry_of_sameEntry lib context entry other same resolved mem
  exact ⟨root, mem_resolvedEntries_restrictedTo.mpr ⟨other, otherInside, found⟩, sameRoot⟩

variable {entries} {all : List FileSystemSandboxEntry}

theorem resolvedEntries_subset (subset : ∀ entry ∈ entries, entry ∈ all)
    (resolved : PathUri × FileSystemAccessMode)
    (mem : resolved ∈ resolvedEntries lib (restrictedTo entries) context) :
    resolved ∈ resolvedEntries lib (restrictedTo all) context := by
  obtain ⟨entry, isIn, mem⟩ := mem_resolvedEntries_restrictedTo.mp mem
  exact mem_resolvedEntries_restrictedTo.mpr ⟨entry, subset entry isIn, mem⟩

section

variable {lib} (represents : Represents lib entries all)

include represents

theorem Represents.mem_rulesOf
    (rule : Rule) : rule ∈ rulesOf lib context entries ↔ rule ∈ rulesOf lib context all := by
  unfold rulesOf
  rw [mem_rules, mem_rules]
  constructor
  · rintro ⟨root, mem, loc⟩
    exact ⟨root, resolvedEntries_subset lib context represents.subset _ mem, loc⟩
  · rintro ⟨root, mem, loc⟩
    obtain ⟨other, found, same⟩ := represents.resolved context _ mem
    exact ⟨other, found, (location_eq_of_eqUri lib _ _ same).trans loc⟩

theorem Represents.areLexical_iff :
    AreLexical lib context entries ↔ AreLexical lib context all := by
  constructor
  · intro lex resolved mem
    obtain ⟨other, found, same⟩ := represents.resolved context _ mem
    have kind := lex _ found
    rwa [location_eq_of_eqUri lib _ _ same, isFallback_eq_of_eqUri lib _ _ same] at kind
  · intro lex resolved mem
    exact lex resolved (resolvedEntries_subset lib context represents.subset _ mem)

end

theorem mem_foldl_pushNew_of_mem (entries start : List FileSystemSandboxEntry)
    (entry : FileSystemSandboxEntry) (mem : entry ∈ start) :
    entry ∈ entries.foldl (pushNew lib) start := by
  induction entries generalizing start with
  | nil => exact mem
  | cons other rest ih =>
    refine ih _ ?_
    unfold pushNew
    split
    · exact mem
    · exact mem_append_left _ mem

theorem represents_foldl_pushNew (entries start : List FileSystemSandboxEntry) :
    Represents lib (entries.foldl (pushNew lib) start) (start ++ entries) := by
  induction entries generalizing start with
  | nil =>
    refine ⟨fun entry mem => mem_append_left _ mem, fun entry mem => ?_⟩
    rw [append_nil] at mem
    exact ⟨entry, mem, sameEntry_refl lib entry⟩
  | cons entry rest ih =>
    rw [foldl_cons]
    have pushed : Represents lib (pushNew lib start entry) (start ++ [entry]) := by
      unfold pushNew
      split
      next known =>
        obtain ⟨other, isIn, same⟩ := any_eq_true.mp known
        refine ⟨fun other mem => mem_append_left _ mem, fun other mem => ?_⟩
        rcases mem_append.mp mem with inStart | isEntry
        · exact ⟨other, inStart, sameEntry_refl lib other⟩
        · cases mem_singleton.mp isEntry
          exact ⟨_, isIn, same⟩
      · exact ⟨fun other mem => mem, fun other mem =>
          ⟨other, mem, sameEntry_refl lib other⟩⟩
    obtain ⟨subset, present⟩ := ih (pushNew lib start entry)
    have split : start ++ entry :: rest = (start ++ [entry]) ++ rest := by simp
    rw [split]
    refine ⟨fun other mem => ?_, fun other mem => ?_⟩
    · rcases mem_append.mp (subset other mem) with inPushed | inRest
      · exact mem_append_left _ (pushed.subset other inPushed)
      · exact mem_append_right _ inRest
    · rcases mem_append.mp mem with inStart | inRest
      · obtain ⟨same, isIn, isSame⟩ := pushed.present other inStart
        exact ⟨same, mem_foldl_pushNew_of_mem lib rest _ same isIn, isSame⟩
      · exact present other (mem_append_right _ inRest)

end

end CodexFormal.Sandboxing
