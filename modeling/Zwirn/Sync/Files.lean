import Zwirn.Fragment.Path

/-!
# Named accesses and the source root

The operating system is a parameter: a `FileSystem` gives each operation the code performs as a run
over the state `σ` of the system, and an `AccessPolicy` may refuse a named access before its body
runs. Over them stand the functions of the source root, which every fragment target goes through.
The code is in `src/access.rs` and `src/source_root.rs`.
-/

namespace Zwirn.Sync

open Lib Fragment

/-! ## Paths -/

/-- A path as its components, from the root or from where it is used. -/
structure Path where
  absolute : Bool
  components : List Str
deriving DecidableEq, Repr

namespace Path

/-- Extends a path. A `.` is a component only at the start of a relative path. -/
def join (base path : Path) : Path :=
  if path.absolute ∨ base = ⟨false, []⟩ then path
  else ⟨base.absolute, base.components ++ path.components.filter (· ≠ ['.'])⟩

/-- The path without its last component. A path without components, the root and the empty one, has
no parent. -/
def parent (path : Path) : Option Path :=
  if path.components = [] then none else some ⟨path.absolute, path.components.dropLast⟩

/-- The last component, if it is a name. A path that ends with a special name has no file name. -/
def fileName (path : Path) : Option Str :=
  path.components.getLast?.filter fun name => name ≠ ['.'] ∧ name ≠ ['.', '.']

/-- The part of the file name behind its last dot, if the name does not begin with that dot. -/
def extension (path : Path) : Option Str :=
  path.fileName.bind fun name =>
    let after := (name.reverse.takeWhile (· ≠ '.')).reverse
    if after.length + 1 < name.length then some after else none

end Path

/-- The target of a fragment relative to the source root: its segments are the components. -/
def relativePath (path : FragmentPath) : Path := ⟨false, path.segments⟩

/-! ## The filesystem -/

/-- The kinds of failure the code tells apart. A missing file is no failure in some places, and the
other kinds are only reported. -/
inductive IoErrorKind
  | notFound
  | notADirectory
  | alreadyExists
  | other
deriving DecidableEq, Repr

/-- A failure of the operating system, with the text that is printed of it. -/
structure IoError where
  kind : IoErrorKind
  message : String
deriving DecidableEq, Repr

/-- What makes two names the same file, on whatever path each is reached. -/
structure FileIdentity where
  device : Nat
  inode : Nat
deriving DecidableEq, Repr

/-- Identities are ordered by device, then by inode. -/
instance : LinearOrder FileIdentity :=
  LinearOrder.lift' (fun identity => toLex (identity.device, identity.inode)) (by
    intro a b h
    obtain ⟨_, _⟩ := a
    obtain ⟨_, _⟩ := b
    cases h
    rfl)

/-- Only regular files and directories are told apart from the rest. -/
inductive FileType
  | file
  | directory
  | other
deriving DecidableEq, Repr

/-- What the code reads of the metadata of a file. -/
structure Metadata where
  fileType : FileType
  identity : FileIdentity
deriving DecidableEq, Repr

/-- How a file is opened for writing, as the flags that the source sets. Exclusive creation and
truncation are the two combinations that the source uses. -/
structure OpenOptions where
  write : Bool
  create : Bool
  createNew : Bool
  truncate : Bool
deriving DecidableEq, Repr

/-- The operations on a filesystem in a state `σ`, with directory handles `δ` and file handles `φ`.
Operations on a directory handle stay beneath the directory. -/
structure FileSystem (σ δ φ : Type) where
  openAmbientDir : Path → Run σ IoError δ
  dirMetadata : δ → Path → Run σ IoError Metadata
  dirOpen : δ → Path → Run σ IoError φ
  dirOpenWith : δ → Path → OpenOptions → Run σ IoError φ
  dirCreateDirAll : δ → Path → Run σ IoError Unit
  fileOpen : Path → Run σ IoError φ
  fileMetadata : φ → Run σ IoError Metadata
  readToEnd : φ → Run σ IoError Bytes
  writeAll : φ → Bytes → Run σ IoError Unit
  write : Path → Bytes → Run σ IoError Unit

/-! ## The access policy -/

/-- The kind of complete filesystem access being coordinated. -/
inductive AccessKind
  | read
  | write
deriving DecidableEq, Repr

/-- Why a coordinated access failed before its filesystem body ran. -/
inductive CoordinationFailure
  | pathNotRepresentable
  | pathResolution (message : String)
  | refused (domain : String) (code : Int) (message : String)
  | accessorPathChanged
deriving DecidableEq, Repr

/-- One coordinated access that failed before its filesystem body ran. -/
structure CoordinatedAccessFailure where
  kind : AccessKind
  path : Path
  reason : CoordinationFailure
deriving DecidableEq, Repr

/-- A policy-aware operation outcome. -/
inductive PolicyFailure (ε ε' : Type)
  | access (error : ε)
  | operation (error : ε')
deriving DecidableEq, Repr

namespace PolicyFailure
variable {ε ε' ε'' : Type}

/-- Changes the refusal, and leaves the failure of a body alone. -/
def mapAccess (f : ε → ε'') : PolicyFailure ε ε' → PolicyFailure ε'' ε'
  | .access error => .access (f error)
  | .operation error => .operation error

/-- Changes the failure of a body, and leaves a refusal alone. -/
def mapOperation (f : ε' → ε'') : PolicyFailure ε ε' → PolicyFailure ε ε''
  | .access error => .access error
  | .operation error => .operation (f error)

end PolicyFailure

/-- Whether a named access is established; the body of the access runs only then. -/
structure AccessPolicy (σ ε : Type) where
  grant : AccessKind → Path → Run σ ε Unit

section
variable {σ ε ε' α : Type}

namespace AccessPolicy

/-- Runs a body under an access, with the body's own outcome as the value. -/
def around (access : AccessPolicy σ ε) (kind : AccessKind) (path : Path) (body : Run σ ε' α) :
    Run σ ε (Except ε' α) := do
  access.grant kind path
  body.attempt

/-- Runs a body under a read access of a path. -/
def read (access : AccessPolicy σ ε) (path : Path) (body : Run σ ε' α) : Run σ ε (Except ε' α) :=
  access.around .read path body

/-- Runs a body under a write access of a path. -/
def write (access : AccessPolicy σ ε) (path : Path) (body : Run σ ε' α) : Run σ ε (Except ε' α) :=
  access.around .write path body

/-- Direct access, which is never refused. In the source it is `DirectAccess`. -/
def direct : AccessPolicy σ Empty where
  grant _ _ := pure ()

end AccessPolicy

/-- Joins the refusal of an access and the failure of its body. -/
def flatten (x : Run σ ε (Except ε' α)) : Run σ (PolicyFailure ε ε') α := do
  let result ← x.mapError .access
  .ofExcept (mapError .operation result)

/-- Fails with an ordinary error. -/
def operation (x : Except ε' α) : Run σ (PolicyFailure ε ε') α :=
  .ofExcept (mapError .operation x)

/-- A step that returned goes on with its value, in the state it was in. -/
theorem operation_of_ok {x : Except ε' α} {a : α} (h : x = .ok a) {s : σ} :
    (operation x : Run σ (PolicyFailure ε ε') α) s = (.ok a, s) := by
  rw [h]
  rfl

/-- A step that failed fails the run with an ordinary error, and changes nothing. -/
theorem operation_of_error {x : Except ε' α} {e : ε'} (h : x = .error e) {s : σ} :
    (operation x : Run σ (PolicyFailure ε ε') α) s = (.error (.operation e), s) := by
  rw [h]
  rfl

/-- An ordinary step returns exactly if it did, and leaves the state as it is. -/
theorem operation_eq_ok {x : Except ε' α} {a : α} {s t : σ} :
    (operation x : Run σ (PolicyFailure ε ε') α) s = (.ok a, t) ↔ x = .ok a ∧ t = s := by
  rw [operation, Run.ofExcept_apply, Prod.mk.injEq, mapError_eq_ok, eq_comm (a := s)]

/-- A granted access has the outcome of its body, and a refused one does not run it. The two kinds
of failure are kept apart by it. -/
theorem flatten_around (access : AccessPolicy σ ε) (kind : AccessKind) (path : Path)
    (body : Run σ ε' α) (s : σ) : flatten (access.around kind path body) s =
      match access.grant kind path s with
      | (.ok (), t) => ((mapError .operation (body t).1), (body t).2)
      | (.error e, t) => (.error (.access e), t) := by
  unfold flatten AccessPolicy.around
  simp only [Run.bind_apply, Run.mapError_apply]
  cases h : access.grant kind path s with
  | mk r t =>
    cases r with
    | ok u => rfl
    | error e => rfl

/-- An access that returns was granted, and returns what its body does. -/
theorem flatten_around_eq_ok {access : AccessPolicy σ ε} {kind : AccessKind} {path : Path}
    {body : Run σ ε' α} {s t : σ} {a : α} :
    flatten (access.around kind path body) s = (.ok a, t) ↔
      ∃ u, access.grant kind path s = (.ok (), u) ∧ body u = (.ok a, t) := by
  rw [flatten_around]
  split
  · next u hgrant => simp [hgrant, Prod.ext_iff]
  · next e u hgrant => simp [hgrant]

end

/-! ## The source root -/

/-- The open source root: a handle that keeps the operations beneath it, and the path it was opened
by. -/
structure SourceRoot (δ : Type) where
  path : Path
  directory : δ

section
variable {σ δ φ : Type} (fs : FileSystem σ δ φ)

namespace SourceRoot

/-- Opens the source root. Its path stays as it was given, and names the targets in accesses and
errors. In the source it is `SourceRoot::open`. -/
def openPath (path : Path) : Run σ IoError (SourceRoot δ) := do
  let directory ← fs.openAmbientDir path
  pure ⟨path, directory⟩

/-- A path beneath the source root, as accesses and errors name it. -/
def namedPath (root : SourceRoot δ) (path : Path) : Path := root.path.join path

/-- The metadata of a path beneath the source root. -/
def metadata (root : SourceRoot δ) (path : Path) : Run σ IoError Metadata :=
  fs.dirMetadata root.directory path

/-- Opens the target of a fragment for reading. -/
def openTarget (root : SourceRoot δ) (path : FragmentPath) : Run σ IoError φ :=
  fs.dirOpen root.directory (relativePath path)

/-- Creates a directory beneath the source root, with all that are missing above it. -/
def createDirAll (root : SourceRoot δ) (path : Path) : Run σ IoError Unit :=
  fs.dirCreateDirAll root.directory path

/-- The identity of the target of a fragment. It fails if there is no such target. -/
def targetIdentity (root : SourceRoot δ) (path : FragmentPath) : Run σ IoError FileIdentity := do
  let metadata ← root.metadata fs (relativePath path)
  pure metadata.identity

/-- The first of the candidates, other than the created target, with its identity. Candidates that
cannot be probed are passed over. -/
def findAlias (root : SourceRoot δ) (path : FragmentPath) (identity : FileIdentity) :
    List FragmentPath → Run σ IoError (Option FragmentPath)
  | [] => pure none
  | candidate :: candidates =>
    if candidate ≠ path then do
      let probe ← (root.targetIdentity fs candidate).attempt
      if probe.toOption = some identity then pure (some candidate)
      else root.findAlias path identity candidates
    else root.findAlias path identity candidates

/-- Creates a target exclusively, and looks for another target that is the new file. -/
def createTarget (root : SourceRoot δ) (path : FragmentPath) (bytes : Bytes)
    (absentTargets : List FragmentPath) : Run σ IoError (Option FragmentPath) := do
  let file ← fs.dirOpenWith root.directory (relativePath path) ⟨true, false, true, false⟩
  let metadata ← fs.fileMetadata file
  fs.writeAll file bytes
  root.findAlias fs path metadata.identity absentTargets

/-- Creates a target or truncates it, and writes the bytes. -/
def replaceTarget (root : SourceRoot δ) (path : FragmentPath) (bytes : Bytes) :
    Run σ IoError Unit := do
  let file ← fs.dirOpenWith root.directory (relativePath path) ⟨true, true, false, true⟩
  fs.writeAll file bytes

end SourceRoot

end

end Zwirn.Sync
