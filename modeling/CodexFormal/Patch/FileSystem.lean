import CodexFormal.Patch.Delta

/-!
# A file system whose operations can fail

Every call consults the next entry of a tape: without a fault the operation
does what it should, with one it fails and may leave its target disturbed.  The
tape stands for everything the file map does not show, such as permissions,
missing directories and a full disk.
-/

set_option autoImplicit false

namespace CodexFormal.Patch

inductive ErrorKind where
  | notFound
  | other
deriving DecidableEq, Repr

/-- What a path holds.  A link stands for any file whose metadata is not that of a
plain file or a directory. -/
inductive FileNode where
  | text (content : Text)
  | binary
  | directory
  | link
deriving DecidableEq, Repr

structure FileMetadata where
  isDirectory : Bool
  isFile : Bool
  isSymlink : Bool
deriving DecidableEq, Repr

def FileNode.metadata : FileNode → FileMetadata
  | text _ => ⟨false, true, false⟩
  | binary => ⟨false, true, false⟩
  | directory => ⟨true, false, false⟩
  | link => ⟨false, true, true⟩

/-- How a call fails.  A disturbed write leaves `leftover` at its target, a
disturbed remove has removed it, and a failed creation has made the first
`made` directories. -/
structure Fault where
  kind : ErrorKind
  disturbed : Bool
  leftover : Option FileNode
  made : Nat
deriving DecidableEq, Repr

abbrev FaultTape := Nat → Option Fault

structure FileSystem where
  nodes : PathUri → Option FileNode
  next : Nat

namespace FileSystem

def called (fs : FileSystem) : FileSystem := { fs with next := fs.next + 1 }

def put (fs : FileSystem) (path : PathUri) (node : Option FileNode) : FileSystem :=
  { fs with nodes := Function.update fs.nodes path node }

section

variable (tape : FaultTape)

def getMetadata (path : PathUri) (fs : FileSystem) : Except ErrorKind FileMetadata × FileSystem :=
  match tape fs.next with
  | some fault => (.error fault.kind, fs.called)
  | none =>
    match fs.nodes path with
    | some node => (.ok node.metadata, fs.called)
    | none => (.error .notFound, fs.called)

def readFileText (path : PathUri) (fs : FileSystem) : Except ErrorKind Text × FileSystem :=
  match tape fs.next with
  | some fault => (.error fault.kind, fs.called)
  | none =>
    match fs.nodes path with
    | some (.text content) => (.ok content, fs.called)
    | some _ => (.error .other, fs.called)
    | none => (.error .notFound, fs.called)

def writeFile (path : PathUri) (content : Text) (fs : FileSystem) :
    Except ErrorKind Unit × FileSystem :=
  match tape fs.next with
  | some fault =>
    (.error fault.kind, if fault.disturbed then fs.called.put path fault.leftover else fs.called)
  | none =>
    match fs.nodes path with
    | some .directory => (.error .other, fs.called)
    | _ => (.ok (), fs.called.put path (some (.text content)))

def makeDirectories (fs : FileSystem) (paths : List PathUri) : FileSystem :=
  { fs with
    nodes := fun path =>
      if path ∈ paths ∧ fs.nodes path = none then some .directory else fs.nodes path }

def createDirectories (paths : List PathUri) (fs : FileSystem) :
    Except ErrorKind Unit × FileSystem :=
  match tape fs.next with
  | some fault => (.error fault.kind, fs.called.makeDirectories (paths.take fault.made))
  | none => (.ok (), fs.called.makeDirectories paths)

def remove (path : PathUri) (fs : FileSystem) : Except ErrorKind Unit × FileSystem :=
  match tape fs.next with
  | some fault =>
    (.error fault.kind, if fault.disturbed then fs.called.put path none else fs.called)
  | none =>
    match fs.nodes path with
    | some _ => (.ok (), fs.called.put path none)
    | none => (.error .notFound, fs.called)

end

def nodeText : Option FileNode → Option Text
  | some (.text content) => some content
  | _ => none

def textFiles (fs : FileSystem) (path : PathUri) : Option Text := nodeText (fs.nodes path)

section

variable (fs : FileSystem)

@[simp] theorem textFiles_called : fs.called.textFiles = fs.textFiles := rfl

variable (path : PathUri)

@[simp] theorem textFiles_put (node : Option FileNode) :
    (fs.put path node).textFiles = Function.update fs.textFiles path (nodeText node) := by
  funext other
  by_cases same : other = path
  · subst same
    simp [textFiles, put]
  · simp [textFiles, put, same]

@[simp] theorem textFiles_makeDirectories (paths : List PathUri) :
    (fs.makeDirectories paths).textFiles = fs.textFiles := by
  funext path
  simp only [textFiles, makeDirectories]
  split
  next made =>
    rw [made.2]
    rfl
  · rfl

end

variable (tape : FaultTape) (path : PathUri) (fs : FileSystem)

theorem getMetadata_textFiles : (fs.getMetadata tape path).2.textFiles = fs.textFiles := by
  unfold getMetadata
  split
  · rfl
  · split <;> rfl

theorem readFileText_textFiles : (fs.readFileText tape path).2.textFiles = fs.textFiles := by
  unfold readFileText
  split
  · rfl
  · split <;> rfl

variable (content : Text)

theorem readFileText_ok (read : (fs.readFileText tape path).1 = .ok content) :
    fs.textFiles path = some content := by
  unfold readFileText at read
  split at read
  · cases read
  · split at read
    next found =>
      cases read
      rw [textFiles, found]
      rfl
    · cases read
    · cases read

theorem createDirectories_textFiles (paths : List PathUri) (fs : FileSystem) :
    (fs.createDirectories tape paths).2.textFiles = fs.textFiles := by
  unfold createDirectories
  split <;> simp

theorem writeFile_leaves (fs : FileSystem) :
    ∃ leftover, (fs.writeFile tape path content).2.textFiles =
    Function.update fs.textFiles path leftover := by
  unfold writeFile
  split
  next fault _ =>
    refine ⟨if fault.disturbed then nodeText fault.leftover else fs.textFiles path, ?_⟩
    cases fault.disturbed <;> simp
  · split
    · exact ⟨fs.textFiles path, by simp⟩
    · exact ⟨some content, by simp [nodeText]⟩

theorem writeFile_ok (fs : FileSystem) (wrote : (fs.writeFile tape path content).1 = .ok ()) :
    (fs.writeFile tape path content).2.textFiles =
    Function.update fs.textFiles path (some content) := by
  unfold writeFile at wrote ⊢
  split at wrote
  · cases wrote
  · split at wrote
    · cases wrote
    · simp [nodeText]

theorem remove_leaves : (fs.remove tape path).2.textFiles = fs.textFiles ∨
    (fs.remove tape path).2.textFiles = Function.update fs.textFiles path none := by
  unfold remove
  split
  next fault _ =>
    cases fault.disturbed
    · exact .inl (by simp)
    · exact .inr (by simp [nodeText])
  · split
    · exact .inr (by simp [nodeText])
    · exact .inl (by simp)

theorem remove_ok (gone : (fs.remove tape path).1 = .ok ()) :
    (fs.remove tape path).2.textFiles = Function.update fs.textFiles path none := by
  unfold remove at gone ⊢
  split at gone
  · cases gone
  · split at gone
    · simp [nodeText]
    · cases gone

end FileSystem

end CodexFormal.Patch
