import CodexFormal.Patch.Apply

/-!
# An exact delta replays to the files

Whatever fails on the way, a delta that is still marked exact says precisely how
the text files differ from those at the start.
-/

set_option autoImplicit false

namespace CodexFormal.Patch

open Foundation FileSystem
open Foundation.Attempt

/-- A relation between the text files and the recorded changes that an exact
delta vouches for. -/
def Exactly (Relation : (PathUri → Option Text) → List AppliedPatchChange → Prop)
    (state : ApplyState) : Prop :=
  state.delta.exact = true → Relation state.fileSystem.textFiles state.delta.changes

/-- The recorded changes, replayed from the initial text files, give the text files. -/
def Replays (initial files : PathUri → Option Text) (changes : List AppliedPatchChange) : Prop :=
  replayChanges id initial changes = files

theorem replayChanges_snoc (initial : PathUri → Option Text) (changes : List AppliedPatchChange)
    (change : AppliedPatchChange) : replayChanges id initial (changes ++ [change]) =
    replayChange id (replayChanges id initial changes) change := by
  simp [replayChanges]

variable {Relation Weaker : (PathUri → Option Text) → List AppliedPatchChange → Prop}

theorem Exactly.weaken {state : ApplyState} (exactly : Exactly Relation state)
    (implies : ∀ files changes, Relation files changes → Weaker files changes) :
    Exactly Weaker state :=
  fun exact => implies _ _ (exactly exact)

theorem callFileSystem_ensures {Value : Type} {op : FileSystem → Value × FileSystem}
    {pre : ApplyState → Prop} {returns : Value → ApplyState → Prop} (stops : ApplyState → Prop)
    (holds : ∀ state, pre state → returns (op state.fileSystem).1
      { state with fileSystem := (op state.fileSystem).2 }) :
    Ensures pre (callFileSystem op) returns stops :=
  holds

theorem quietCall_ensures {Value : Type} {op : FileSystem → Value × FileSystem}
    (stops : ApplyState → Prop) (quiet : ∀ fs, (op fs).2.textFiles = fs.textFiles) :
    Ensures (Exactly Relation) (callFileSystem op) (fun _ => Exactly Relation) stops := by
  refine callFileSystem_ensures _ fun state exactly exact => ?_
  rw [quiet]
  exact exactly exact

theorem keepExactIf_ensures (cond : Bool) (stops : ApplyState → Prop) :
    Ensures (Exactly Relation) (keepExactIf cond)
    (fun _ => Exactly fun files changes => Relation files changes ∧ cond = true) stops := by
  refine ensures_modify _ _ _ _ fun state exactly exact => ?_
  obtain ⟨exactBefore, holds⟩ := Bool.and_eq_true_iff.mp exact
  exact ⟨exactly exactBefore, holds⟩

variable (tape : FaultTape) (path : PathUri) (stops : ApplyState → Prop)

theorem noteExistingPathDeltaSupport_ensures :
    Ensures (Exactly Relation) (noteExistingPathDeltaSupport tape path)
    (fun _ => Exactly Relation) stops := by
  refine ensures_bind _ _ _ _ _ _
    (quietCall_ensures stops (getMetadata_textFiles tape path)) fun res => ?_
  have lowered : ∀ cond, Ensures (Exactly Relation) (keepExactIf cond)
    (fun _ => Exactly Relation) stops := fun cond =>
    (keepExactIf_ensures cond stops).weaken (fun _ => id)
    (fun _ _ exactly => exactly.weaken fun _ _ => And.left) (fun _ => id)
  cases res with
  | ok metadata => exact lowered _
  | error kind =>
    cases kind with
    | notFound => exact ensures_pure _ _ _ _ fun _ => id
    | other => exact lowered _

theorem readOptionalFileTextForDelta_ensures :
    Ensures (Exactly Relation) (readOptionalFileTextForDelta tape path)
    (fun _ => Exactly Relation) stops := by
  refine ensures_bind _ _ _ _ _ _ (noteExistingPathDeltaSupport_ensures tape path stops)
    fun _ => ensures_bind _ _ _ _ _ _
    (quietCall_ensures stops (readFileText_textFiles tape path)) fun res => ?_
  cases res with
  | ok text => exact ensures_pure _ _ _ _ fun _ => id
  | error kind =>
    cases kind with
    | notFound => exact ensures_pure _ _ _ _ fun _ => id
    | other =>
      refine ensures_bind _ _ _ _ _ _ (keepExactIf_ensures false stops) fun _ => ?_
      exact ensures_pure _ _ _ _ fun _ exactly => exactly.weaken fun _ _ => And.left

theorem tryWrite_ensures (wrote : Except ApplyError Unit)
    (Stopped : (PathUri → Option Text) → List AppliedPatchChange → Prop) :
    Ensures (Exactly fun files changes => wrote = .ok () → Relation files changes)
    (tryWrite wrote) (fun _ => Exactly Relation) (Exactly Stopped) := by
  cases wrote with
  | ok _ => exact ensures_pure _ _ _ _ fun _ exactly => exactly.weaken fun _ _ holds => holds rfl
  | error error =>
    refine ensures_bind _ _ _ _ _ _ (keepExactIf_ensures false (Exactly Stopped)) fun _ => ?_
    refine ensures_throw _ _ _ _ fun state exactly exact => ?_
    cases (exactly exact).2

section

variable (Relation : (PathUri → Option Text) → List AppliedPatchChange → Prop)

/-- The files differ from related ones at most at a path. -/
def ChangedAt
    (path : PathUri) (files : PathUri → Option Text) (changes : List AppliedPatchChange) : Prop :=
  ∃ before leftover, Relation before changes ∧ files = Function.update before path leftover

/-- The files are related ones with a content put at a path. -/
def WrittenAt (path : PathUri) (content : Option Text) (files : PathUri → Option Text)
    (changes : List AppliedPatchChange) : Prop :=
  ∃ before, Relation before changes ∧ files = Function.update before path content

end

theorem writeFile_ensures (text : Text) (stops : ApplyState → Prop) :
    Ensures (Exactly (ChangedAt Relation path)) (callFileSystem (writeFile tape path text))
    (fun res => Exactly fun files changes => ChangedAt Relation path files changes ∧
    (res = .ok () → WrittenAt Relation path (some text) files changes)) stops := by
  refine callFileSystem_ensures _ fun state exactly exact => ?_
  obtain ⟨pre, leftover, related, files⟩ := exactly exact
  dsimp only
  refine ⟨?_, fun wrote => ⟨pre, related, ?_⟩⟩
  · obtain ⟨left, leaves⟩ := writeFile_leaves tape path text state.fileSystem
    exact ⟨pre, left, related, by rw [leaves, files, Function.update_idem]⟩
  · rw [writeFile_ok tape path text _ wrote, files, Function.update_idem]

variable (paths : PathOperations) (tape : FaultTape) (path : PathUri) (stops : ApplyState → Prop)

theorem createParentDirectories_ensures :
    Ensures (Exactly Relation) (createParentDirectories paths tape path)
    (fun _ => Exactly Relation) stops := by
  unfold createParentDirectories
  cases paths.parent path with
  | none => exact ensures_pure _ _ _ _ fun _ => id
  | some parent =>
    exact quietCall_ensures stops (createDirectories_textFiles tape _)

theorem eq_ok_of_mapError_eq_ok {First Second : Type} {res : Except First Unit}
    {report : First → Second} (ok : res.mapError report = .ok ()) : res = .ok () := by
  cases res with
  | ok _ => rfl
  | error _ => cases ok

/-- The retry writes the same target again, and the directories made in between
are no text files. -/
theorem writeFileWithMissingParentRetry_ensures (text : Text) (stops : ApplyState → Prop) :
    Ensures (Exactly Relation) (writeFileWithMissingParentRetry paths tape path text)
    (fun wrote => Exactly fun files changes =>
    wrote = .ok () → WrittenAt Relation path (some text) files changes) stops := by
  have first := (@writeFile_ensures Relation tape path text stops).weaken
    (fun state (exactly : Exactly Relation state) => exactly.weaken fun files _ related =>
    ⟨files, files path, related, by simp⟩) (fun _ _ => id) (fun _ => id)
  -- the last write of either way decides
  have reported : ∀ (res : Except ErrorKind Unit) (report : ErrorKind → ApplyError), Ensures
        (Exactly fun files changes => ChangedAt Relation path files changes ∧
          (res = .ok () → WrittenAt Relation path (some text) files changes))
        (pure (res.mapError report) : Applying (Except ApplyError Unit))
        (fun wrote => Exactly fun files changes =>
          wrote = .ok () → WrittenAt Relation path (some text) files changes) stops :=
    fun res report => ensures_pure _ _ _ _ fun _ exactly =>
      exactly.weaken fun _ _ holds ok => holds.2 (eq_ok_of_mapError_eq_ok ok)
  refine ensures_bind _ _ _ _ _ _ first fun res => ?_
  split
  · refine ensures_bind _ _ _ (fun _ => Exactly (ChangedAt Relation path)) _ _ ?_ fun created => ?_
    · exact (createParentDirectories_ensures paths tape path stops).weaken
        (fun _ exactly => exactly.weaken fun _ _ => And.left) (fun _ _ => id) (fun _ => id)
    · cases created with
      | error kind =>
        exact ensures_pure _ _ _ _ fun _ exactly => exactly.weaken fun _ _ _ ok => by cases ok
      | ok _ =>
        exact ensures_bind _ _ _ _ _ _ (writeFile_ensures tape path text stops)
          fun second => reported second _
  · exact reported res _

theorem ensureNotDirectory_ensures (desc : String) (path : PathUri) :
    Ensures (Exactly Relation) (ensureNotDirectory paths tape desc path)
    (fun _ => Exactly Relation) (Exactly Relation) := by
  refine ensures_bind _ _ _ _ _ _
    (quietCall_ensures _ (getMetadata_textFiles tape path)) fun res => ?_
  cases res with
  | error kind => exact ensures_throw _ _ _ _ fun _ => id
  | ok metadata =>
    dsimp only
    split
    · exact ensures_throw _ _ _ _ fun _ => id
    · exact ensures_pure _ _ _ _ fun _ => id

theorem removeFailureWasSideEffectFree_ensures
    (expectedContent : Option Text) (stops : ApplyState → Prop) :
    Ensures (Exactly Relation) (removeFailureWasSideEffectFree tape path expectedContent)
    (fun same => Exactly fun files changes => Relation files changes ∧
    (same = true → files path ≠ none)) stops := by
  cases expectedContent with
  | none =>
    exact ensures_pure _ _ _ _ fun _ exactly =>
      exactly.weaken fun _ _ related => ⟨related, fun no => by cases no⟩
  | some expected =>
    refine ensures_bind _ _ _ (fun res => Exactly fun files changes =>
      Relation files changes ∧ ∀ text, res = .ok text → files path ≠ none) _ _ ?_ ?_
    · refine callFileSystem_ensures _ fun state exactly exact => ?_
      dsimp only
      rw [readFileText_textFiles]
      refine ⟨exactly exact, fun text read => ?_⟩
      rw [readFileText_ok tape path _ text read]
      exact Option.some_ne_none text
    · intro res
      cases res with
      | ok text =>
        exact ensures_pure _ _ _ _ fun _ exactly =>
          exactly.weaken fun _ _ holds => ⟨holds.1, fun _ => holds.2 text rfl⟩
      | error kind =>
        exact ensures_pure _ _ _ _ fun _ exactly =>
          exactly.weaken fun _ _ holds => ⟨holds.1, fun no => by cases no⟩

/-- Where the remove succeeds its target is gone; where it stops the run, an
exact delta vouches for the files as they were. -/
theorem removeFile_ensures (desc : String) (path : PathUri) (expected : Option Text) :
    Ensures (Exactly Relation) (removeFile paths tape desc path expected)
    (fun _ => Exactly (WrittenAt Relation path none)) (Exactly Relation) := by
  refine ensures_bind _ _ _ _ _ _ (ensureNotDirectory_ensures paths tape desc path) fun _ => ?_
  refine ensures_bind _ _ _ (fun res => Exactly fun files changes =>
    ∃ pre, Relation pre changes ∧
    (files = pre ∨ files = Function.update pre path none) ∧
    (res = .ok () → files = Function.update pre path none)) _ _ ?_ ?_
  · refine callFileSystem_ensures _ fun state exactly exact => ?_
    exact ⟨state.fileSystem.textFiles, exactly exact, remove_leaves tape path state.fileSystem,
      remove_ok tape path state.fileSystem⟩
  · intro res
    cases res with
    | ok _ =>
      refine ensures_pure _ _ _ _ fun _ exactly => exactly.weaken ?_
      rintro files changes ⟨pre, related, -, gone⟩
      exact ⟨pre, related, gone rfl⟩
    | error kind =>
      refine ensures_bind _ _ _ _ _ _ (removeFailureWasSideEffectFree_ensures tape path expected _)
        fun same => ensures_bind _ _ _ _ _ _ (keepExactIf_ensures same _)
        fun _ => ensures_throw _ _ _ _ fun state exactly => exactly.weaken ?_
      rintro files changes ⟨⟨⟨pre, related, rfl | rfl, -⟩, here⟩, holds⟩
      · exact related
      · exact absurd (Function.update_self path none pre) (here holds)

theorem deriveNewContentsFromChunks_ensures
    (mode : ApplyPatchFileUpdateMode) (path : PathUri) (chunks : List UpdateFileChunk) :
    Ensures (Exactly Relation) (deriveNewContentsFromChunks paths tape mode path chunks)
    (fun _ => Exactly Relation) (Exactly Relation) := by
  refine ensures_bind _ _ _ _ _ _
    (quietCall_ensures _ (readFileText_textFiles tape path)) fun res => ?_
  cases res with
  | error kind => exact ensures_throw _ _ _ _ fun _ => id
  | ok orig =>
    dsimp only
    split
    · exact ensures_throw _ _ _ _ fun _ => id
    · exact ensures_pure _ _ _ _ fun _ => id

theorem resolve_ensures (cwd : PathUri) (path : Text) :
    Ensures (Exactly Relation) (resolve paths cwd path) (fun _ => Exactly Relation)
    (Exactly Relation) := by
  unfold resolve
  cases paths.join cwd path with
  | some uri => exact ensures_pure _ _ _ _ fun _ => id
  | none => exact ensures_throw _ _ _ _ fun _ => id

section Hunks

variable (initial : PathUri → Option Text)

/-- A run that starts with an exact record ends with one, whether it returns or
stops. -/
def KeepsRecord {Value : Type} (program : Applying Value) : Prop :=
  Ensures (Exactly (Replays initial)) program (fun _ => Exactly (Replays initial))
    (Exactly (Replays initial))

variable (path : PathUri)

theorem pushChange_ensures (change : AppliedPatchFileChange) (stops : ApplyState → Prop)
    (noted : ∀ files changes, Relation files changes →
    replayChange id (replayChanges id initial changes) ⟨path, change⟩ = files) :
    Ensures (Exactly Relation) (pushChange path change)
    (fun _ => Exactly (Replays initial)) stops := by
  refine ensures_modify _ _ _ _ fun state exactly exact => ?_
  have related := exactly exact
  exact (replayChanges_snoc initial _ _).trans (noted _ _ related)

variable (paths : PathOperations) (tape : FaultTape) (path : PathUri)

theorem applyAddFile_keepsRecord
    (contents : Text) : KeepsRecord initial (applyAddFile paths tape path contents) := by
  refine ensures_bind _ _ _ _ _ _ (readOptionalFileTextForDelta_ensures tape path _)
    fun prev => ensures_bind _ _ _ _ _ _
    (writeFileWithMissingParentRetry_ensures paths tape path contents _) fun wrote =>
    ensures_bind _ _ _ _ _ _ (tryWrite_ensures wrote (Replays initial)) fun _ =>
    pushChange_ensures initial path (.add contents prev) _ ?_
  rintro files changes ⟨pre, rfl, rfl⟩
  rfl

theorem applyDeleteFile_keepsRecord : KeepsRecord initial (applyDeleteFile paths tape path) := by
  refine ensures_bind _ _ _ _ _ _ (noteExistingPathDeltaSupport_ensures tape path _)
    fun _ => ensures_bind _ _ _ _ _ _
    (quietCall_ensures _ (readFileText_textFiles tape path)) fun read =>
    ensures_bind _ _ _ _ _ _ (keepExactIf_ensures read.toOption.isSome _) fun _ =>
    ensures_bind _ _ _ _ _ _ ((removeFile_ensures paths tape _ path _).weaken
    (fun _ => id) (fun _ _ => id) (fun _ exactly => exactly.weaken fun _ _ => And.left))
    fun _ => ?_
  cases deleted : read.toOption with
  | none =>
    refine ensures_pure _ _ _ _ fun _ exactly => exactly.weaken ?_
    rintro files changes ⟨pre, ⟨-, known⟩, -⟩
    cases known
  | some text =>
    refine pushChange_ensures initial path (.delete text) _ ?_
    rintro files changes ⟨pre, ⟨rfl, -⟩, rfl⟩
    rfl

def RecordedAdd (destination : PathUri) (newContents : Text) (overwritten : Option Text)
    (files : PathUri → Option Text) (changes : List AppliedPatchChange) : Prop :=
  ∃ earlier, changes = earlier ++ [⟨destination, .add newContents overwritten⟩] ∧
    files = Function.update (replayChanges id initial earlier) destination (some newContents)

theorem RecordedAdd.replays {dest : PathUri} {newText : Text}
    {prev : Option Text} (files : PathUri → Option Text) (changes : List AppliedPatchChange)
    (noted : RecordedAdd initial dest newText prev files changes) :
    Replays initial files changes := by
  obtain ⟨earlier, rfl, rfl⟩ := noted
  exact replayChanges_snoc initial earlier _

theorem applyMove_keepsRecord (cwd path : PathUri) (movePath orig newText : Text) :
    KeepsRecord initial (applyMove paths tape cwd path movePath orig newText) := by
  refine ensures_bind _ _ _ _ _ _ (resolve_ensures paths cwd movePath) fun dest =>
    ensures_bind _ _ _ _ _ _ (readOptionalFileTextForDelta_ensures tape dest _)
    fun prev => ensures_bind _ _ _ _ _ _
    (writeFileWithMissingParentRetry_ensures paths tape dest newText _)
    fun wrote => ensures_bind _ _ _ _ _ _ (tryWrite_ensures wrote (Replays initial))
    fun _ => ensures_bind _ _ _
    (fun _ => Exactly (RecordedAdd initial dest newText prev)) _ _ ?_
    fun _ => ?_
  · refine ensures_modify _ _ _ _ fun state exactly exact => ?_
    obtain ⟨pre, rfl, files⟩ := exactly exact
    exact ⟨state.delta.changes, rfl, files⟩
  · -- a remove that stops the run leaves the noted write, which replays
    refine ensures_bind _ _ _ _ _ _ ((removeFile_ensures paths tape _ path _).weaken
      (fun _ => id) (fun _ _ => id) (fun _ exactly => exactly.weaken (RecordedAdd.replays initial)))
      fun _ => ensures_modify _ _ _ _ fun state exactly exact => ?_
    obtain ⟨pre, ⟨earlier, noted, rfl⟩, files⟩ := exactly exact
    simp only [Replays, noted, List.dropLast_concat]
    rw [replayChanges_snoc, files]
    rfl

theorem applyUpdateInPlace_keepsRecord (orig newText : Text) :
    KeepsRecord initial (applyUpdateInPlace paths tape path orig newText) := by
  have wrote := (@writeFile_ensures (Replays initial) tape path newText
    (Exactly (Replays initial))).weaken
    (fun state (exactly : Exactly (Replays initial) state) => exactly.weaken
      fun files _ related => ⟨files, files path, related, by simp⟩)
    (fun _ _ => id) (fun _ => id)
  refine ensures_bind _ _ _ _ _ _ wrote fun res =>
    ensures_bind _ _ _ _ _ _ ((tryWrite_ensures (res.mapError _) (Replays initial)).weaken
    (fun _ exactly => exactly.weaken fun _ _ holds ok =>
    holds.2 (eq_ok_of_mapError_eq_ok ok)) (fun _ _ => id) (fun _ => id))
    fun _ => pushChange_ensures initial path (.update none orig none newText) _ ?_
  rintro files changes ⟨pre, rfl, rfl⟩
  rfl

variable (mode : ApplyPatchFileUpdateMode)

theorem applyUpdateFile_keepsRecord (cwd path : PathUri) (movePath : Option Text)
    (chunks : List UpdateFileChunk) :
    KeepsRecord initial (applyUpdateFile paths tape mode cwd path movePath chunks) := by
  refine ensures_bind _ _ _ _ _ _ (noteExistingPathDeltaSupport_ensures tape path _)
    fun _ => ensures_bind _ _ _ _ _ _
    (deriveNewContentsFromChunks_ensures paths tape mode path chunks) fun contents => ?_
  cases movePath with
  | none => exact applyUpdateInPlace_keepsRecord initial paths tape path contents.1 contents.2
  | some dest =>
    exact applyMove_keepsRecord initial paths tape cwd path dest contents.1 contents.2

theorem applyHunk_keepsRecord (cwd : PathUri) (hunk : Hunk) (affected : AffectedPaths) :
    KeepsRecord initial (applyHunk paths tape mode cwd hunk affected) := by
  have got : ∀ affected : AffectedPaths,
      KeepsRecord initial (pure affected : Applying AffectedPaths) :=
    fun _ => ensures_pure _ _ _ _ fun _ => id
  refine ensures_bind _ _ _ _ _ _ (resolve_ensures paths cwd hunk.sourcePath) fun path => ?_
  cases hunk with
  | addFile _ contents =>
    exact ensures_bind _ _ _ _ _ _ (applyAddFile_keepsRecord initial paths tape path contents)
      fun _ => got _
  | deleteFile _ =>
    exact ensures_bind _ _ _ _ _ _ (applyDeleteFile_keepsRecord initial paths tape path)
      fun _ => got _
  | updateFile _ dest chunks =>
    exact ensures_bind _ _ _ _ _ _
      (applyUpdateFile_keepsRecord initial paths tape mode cwd path dest chunks)
      fun _ => got _

theorem applyHunks_keepsRecord (cwd : PathUri) (hunks : List Hunk) (affected : AffectedPaths) :
    KeepsRecord initial (applyHunks paths tape mode cwd hunks affected) := by
  induction hunks generalizing affected with
  | nil => exact ensures_pure _ _ _ _ fun _ => id
  | cons hunk rest ih =>
    exact ensures_bind _ _ _ _ _ _
      (applyHunk_keepsRecord initial paths tape mode cwd hunk affected) ih

end Hunks

theorem applyHunksToFiles_keepsRecord
    (mode : ApplyPatchFileUpdateMode) (cwd : PathUri) (hunks : List Hunk)
    (initial : PathUri → Option Text) :
    KeepsRecord initial (applyHunksToFiles paths tape mode cwd hunks) := by
  unfold applyHunksToFiles
  split
  · exact ensures_throw _ _ _ _ fun _ => id
  · exact applyHunks_keepsRecord initial paths tape mode cwd hunks _

/-- Whatever the tape makes fail, and whether the run returns or stops: if the
delta is exact in the end, replaying it on the initial text files gives the final
ones. -/
theorem exact_delta_replays (paths : PathOperations) (tape : FaultTape)
    (mode : ApplyPatchFileUpdateMode) (cwd : PathUri) (hunks : List Hunk) (fs : FileSystem)
    (outcome : Except ApplyError AffectedPaths) (final : ApplyState)
    (run : (applyHunksToFiles paths tape mode cwd hunks).run.run ⟨fs, .empty⟩ = (outcome, final))
    (exactInTheEnd : final.delta.exact = true) :
    replayChanges id fs.textFiles final.delta.changes = final.fileSystem.textFiles := by
  have kept := applyHunksToFiles_keepsRecord paths tape mode cwd hunks fs.textFiles
    ⟨fs, .empty⟩ (fun _ => rfl)
  rw [run] at kept
  cases outcome with
  | _ => exact kept exactInTheEnd

def flatPaths : PathOperations where
  join := fun _ path => some ⟨path⟩
  parent := fun _ => none
  directories := fun _ => []
  inferredNativePathString := PathUri.text

/-- Only `b` is there. -/
def beforeMove : FileSystem :=
  ⟨fun path => if path = ⟨['b']⟩ then some (.text ['x', '\n']) else none, 0⟩

def failedRemove : FaultTape :=
  fun call => if call = 6 then some ⟨.other, false, none, 0⟩ else none

def moveToC : Hunk :=
  .updateFile ['b'] (some ['c']) [⟨none, [['x']], [['y']], [], false⟩]

def failedMove : Except ApplyError AffectedPaths × ApplyState :=
  (applyHunksToFiles flatPaths failedRemove .normalizeToLf ⟨[]⟩ [moveToC]).run.run
    ⟨beforeMove, .empty⟩

theorem failed_remove_leaves_recorded_write :
    failedMove.1 = .error (.io "Failed to remove original b".toList .other) ∧
      failedMove.2.delta = ⟨[⟨⟨['c']⟩, .add ['y', '\n'] none⟩], true⟩ ∧
      replayChanges id beforeMove.textFiles failedMove.2.delta.changes =
        failedMove.2.fileSystem.textFiles :=
  ⟨by decide, by decide,
    exact_delta_replays flatPaths failedRemove .normalizeToLf ⟨[]⟩ [moveToC] beforeMove
      failedMove.1 failedMove.2 rfl (by decide)⟩

end CodexFormal.Patch
