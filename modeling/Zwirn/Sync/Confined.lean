import Zwirn.Sync.Below
import Zwirn.Sync.Report
import Zwirn.Sync.TreeDisk

/-!
# What a command can reach

A confined filesystem refuses everything but the source root, what lies beneath it by plain names,
and the document, and a confined policy refuses every other named access. A command runs there as it
does on the filesystem itself (`execute_confined`), so it reaches nothing else.
-/

namespace Zwirn.Sync

open Lib Fragment

/-! ## Confinement -/

instance (segment : Str) : Decidable (IsSegment segment) :=
  decidable_of_iff (segment ≠ [] ∧ segment ≠ ['.'] ∧ segment ≠ ['.', '.'] ∧
    ∀ c ∈ segment, c ≠ '/' ∧ c ≠ '\\' ∧ isWhitespace c = false)
    ⟨fun h => ⟨h.1, h.2.1, h.2.2.1, h.2.2.2⟩, fun h => ⟨h.nonempty, h.not_current, h.not_parent, h.plain⟩⟩

/-- The path leads down from the directory it is used in, by plain names. -/
def Path.Descends (path : Path) : Prop :=
  path.absolute = false ∧ ∀ name ∈ path.components, IsSegment name

instance (path : Path) : Decidable path.Descends := inferInstanceAs (Decidable (_ ∧ _))

/-- The path leads down from another one, by plain names. -/
def Path.Beneath (path root : Path) : Prop :=
  path.absolute = root.absolute ∧ root.components <+: path.components ∧
    ∀ name ∈ path.components.drop root.components.length, IsSegment name

instance (path root : Path) : Decidable (path.Beneath root) := inferInstanceAs (Decidable (_ ∧ _))

section
variable {σ δ φ ε : Type}

/-- The filesystem where only the source root and the document of a request can be reached. Every
operation on another path fails with `denied` and leaves the state. -/
def FileSystem.confined (fs : FileSystem σ δ φ) (paths : ResolvedPaths) (denied : IoError) :
    FileSystem σ δ φ where
  openAmbientDir path := if path = paths.sourceRoot then fs.openAmbientDir path else .fail denied
  dirMetadata dir path := if path.Descends then fs.dirMetadata dir path else .fail denied
  dirOpen dir path := if path.Descends then fs.dirOpen dir path else .fail denied
  dirOpenWith dir path options :=
    if path.Descends then fs.dirOpenWith dir path options else .fail denied
  dirCreateDirAll dir path := if path.Descends then fs.dirCreateDirAll dir path else .fail denied
  fileOpen path := if path = paths.document then fs.fileOpen path else .fail denied
  fileMetadata := fs.fileMetadata
  readToEnd := fs.readToEnd
  writeAll := fs.writeAll
  write path bytes := if path = paths.document then fs.write path bytes else .fail denied

/-- The policy where only the targets and the document of a request are granted. -/
def AccessPolicy.confined (access : AccessPolicy σ ε) (paths : ResolvedPaths) (refusal : ε) :
    AccessPolicy σ ε where
  grant kind path :=
    if path = paths.document ∨ path.Beneath paths.sourceRoot then access.grant kind path
    else .fail refusal

end

/-! ## Paths of fragments -/

/-- The start of a fragment path descends, since its segments are names. -/
theorem descends_of_initial {path : FragmentPath} {names : List Str} (h : names <+: path.segments) :
    Path.Descends ⟨false, names⟩ :=
  ⟨rfl, fun name hname => path.spells.2.1 name (h.subset hname)⟩

/-- The target of a fragment lies beneath wherever it is taken from. -/
theorem relativePath_descends (path : FragmentPath) : (relativePath path).Descends :=
  descends_of_initial (List.prefix_refl _)

/-- The path by which a target is named lies beneath the source root. -/
theorem namedPath_beneath {δ : Type} (root : SourceRoot δ) (path : FragmentPath) :
    (root.namedPath (relativePath path)).Beneath root.path := by
  rw [SourceRoot.namedPath, join_relativePath]
  refine ⟨rfl, List.prefix_append _ _, fun name hname => ?_⟩
  rw [List.drop_left] at hname
  exact path.spells.2.1 name hname

/-! ## Runs -/

section
variable {σ δ φ ε ε' α : Type} {fs : FileSystem σ δ φ} {access : AccessPolicy σ ε}
  {paths : ResolvedPaths} {denied : IoError} {refusal : ε}

/-- Two runs are equal if their first steps are, and if they go on alike with what that step can
return. -/
theorem bind_congr_ok {β : Type} {x y : Run σ ε α} {f g : α → Run σ ε β} (hx : x = y)
    (hf : ∀ a s t, x s = (.ok a, t) → f a = g a) : x >>= f = y >>= g := by
  subst hx
  funext s
  rw [Run.bind_apply, Run.bind_apply]
  split
  · next a t h => rw [hf a s t h]
  · rfl

/-- An access of the document or beneath the source root is not refused by the confined policy. -/
theorem around_confined {kind : AccessKind} {path : Path} {body body' : Run σ ε' α}
    (hpath : path = paths.document ∨ path.Beneath paths.sourceRoot) (hbody : body = body') :
    flatten ((access.confined paths refusal).around kind path body) =
      flatten (access.around kind path body') := by
  subst hbody
  rw [AccessPolicy.around, AccessPolicy.around, AccessPolicy.confined]
  dsimp only
  rw [if_pos hpath]

/-- Probing a path that descends is not denied. -/
theorem metadata_confined (root : SourceRoot δ) {path : Path} (h : path.Descends) :
    root.metadata (fs.confined paths denied) path = root.metadata fs path := if_pos h

/-- So a directory is checked as before, -/
theorem validateOptionalDirectory_confined (root : SourceRoot δ) {path : Path} (h : path.Descends) :
    validateOptionalDirectory (fs.confined paths denied) root path =
      validateOptionalDirectory fs root path := by
  rw [validateOptionalDirectory, metadata_confined root h]
  rfl

/-- Two loops over a list are equal if their rounds are for the elements of the list. -/
theorem forM_congr_mem {f g : α → Run σ ε Unit} {xs : List α} (h : ∀ x ∈ xs, f x = g x) :
    forM xs f = forM xs g := by
  induction xs with
  | nil => rfl
  | cons x xs ih =>
    rw [List.forall_mem_cons] at h
    rw [List.forM_cons, List.forM_cons, h.1, ih h.2]

/-- and the directories above a target are, since each of them descends. -/
theorem validateParents_confined (root : SourceRoot δ) (path : FragmentPath) :
    validateParents (fs.confined paths denied) root path = validateParents fs root path := by
  rw [validateParents_eq, validateParents_eq]
  refine forM_congr_mem fun parent hparent => ?_
  obtain ⟨names, hnames, -, -, rfl⟩ := mem_parentPaths.1 hparent
  rw [validateParent, validateOptionalDirectory_confined root (descends_of_initial hnames)]
  rfl

/-- A target is read as before. -/
theorem readOptionalTarget_confined (root : SourceRoot δ) (path : FragmentPath) (target : Path) :
    readOptionalTarget (fs.confined paths denied) root path target =
      readOptionalTarget fs root path target := by
  have hopen : root.openTarget (fs.confined paths denied) path = root.openTarget fs path :=
    if_pos (relativePath_descends path)
  rw [readOptionalTarget, metadata_confined root (relativePath_descends path), hopen]
  rfl

/-- The document is read as before. -/
theorem readDocument_confined :
    readDocument (fs.confined paths denied) paths.document = readDocument fs paths.document := by
  have hopen : (fs.confined paths denied).fileOpen paths.document = fs.fileOpen paths.document :=
    if_pos rfl
  rw [readDocument, hopen]
  rfl

/-- So one round of the discovery is as before, with a source root that was opened at the path of
the request. -/
theorem discoverEntry_confined {root : SourceRoot δ} (hroot : root.path = paths.sourceRoot)
    (origin : Option DocumentOrigin) (identities : OrdMap FileIdentity FragmentPath)
    (fragment : DiscoveredFragment) :
    discoverEntry (fs.confined paths denied) (access.confined paths refusal) root origin identities
      fragment = discoverEntry fs access root origin identities fragment := by
  have hbeneath : (root.namedPath (relativePath fragment.path)).Beneath paths.sourceRoot :=
    hroot ▸ namedPath_beneath root fragment.path
  rw [discoverEntry, discoverEntry, validateParents_confined]
  refine bind_congr_ok rfl fun _ _ _ _ => bind_congr_ok rfl fun _ _ _ _ => ?_
  refine bind_congr_ok ?_ fun _ _ _ _ => rfl
  exact around_confined (.inr hbeneath) (readOptionalTarget_confined root fragment.path _)

/-- The induction over the fragments carries this to the whole loop. -/
theorem discoverEntries_confined {root : SourceRoot δ} (hroot : root.path = paths.sourceRoot)
    (origin : Option DocumentOrigin) (identities : OrdMap FileIdentity FragmentPath)
    (fragments : List DiscoveredFragment) :
    discoverEntries (fs.confined paths denied) (access.confined paths refusal) root origin identities
      fragments = discoverEntries fs access root origin identities fragments := by
  induction fragments generalizing identities with
  | nil => rfl
  | cons fragment fragments ih =>
    rw [discoverEntries, discoverEntries]
    refine bind_congr_ok (discoverEntry_confined hroot origin identities fragment) fun r _ _ _ => ?_
    exact bind_congr_ok (ih r.2) fun _ _ _ _ => rfl

/-- An opened source root keeps the path it was opened by. -/
theorem openSourceRoot_path {path : Path} {root : SourceRoot δ} {s t : σ}
    (h : Inventory.openSourceRoot fs path s = (.ok root, t)) : root.path = path := by
  rw [Inventory.openSourceRoot, Run.mapError_eq_ok, SourceRoot.openPath, Run.bind_eq_ok] at h
  obtain ⟨directory, u, -, hroot⟩ := h
  cases hroot
  rfl

/-- The discovery is as before, with its accesses and its operations confined. The opened root is
that of the resolved paths, which the accesses of the targets need. -/
theorem discoverForDocument_confined :
    Inventory.discoverForDocument (fs.confined paths denied) paths.sourceRoot paths.document
        (access.confined paths refusal) =
      Inventory.discoverForDocument fs paths.sourceRoot paths.document access := by
  have hopen : (fs.confined paths denied).openAmbientDir paths.sourceRoot =
      fs.openAmbientDir paths.sourceRoot := if_pos rfl
  have hroot : Inventory.openSourceRoot (fs.confined paths denied) paths.sourceRoot =
      Inventory.openSourceRoot fs paths.sourceRoot := by
    rw [Inventory.openSourceRoot, SourceRoot.openPath, hopen]
    rfl
  rw [Inventory.discoverForDocument, Inventory.discoverForDocument, hroot]
  refine bind_congr_ok rfl fun root s t hopened => ?_
  refine bind_congr_ok (around_confined (.inl rfl) readDocument_confined) fun document _ _ _ => ?_
  rw [Inventory.discoverInner, Inventory.discoverInner]
  refine bind_congr_ok rfl fun _ _ _ _ => bind_congr_ok rfl fun discovered _ _ _ => ?_
  refine bind_congr_ok (discoverEntries_confined ?_ _ _ discovered) fun _ _ _ _ => rfl
  exact openSourceRoot_path (Run.mapError_eq_ok.1 hopened)

/-- What is discovered is an inventory of the source root of the request. -/
theorem discoverForDocument_root {path : Path} {inventory : Inventory δ} {s t : σ}
    (h : Inventory.discoverForDocument fs path paths.document access s = (.ok inventory, t)) :
    inventory.sourceRoot.path = path := by
  rw [Inventory.discoverForDocument, Run.bind_eq_ok] at h
  obtain ⟨root, u, hroot, h⟩ := h
  rw [Run.bind_eq_ok] at h
  obtain ⟨document, v, -, h⟩ := h
  simp only [Inventory.discoverInner, Run.bind_eq_ok] at h
  obtain ⟨_, _, -, _, _, -, _, _, -, hinventory⟩ := h
  cases hinventory
  exact openSourceRoot_path (Run.mapError_eq_ok.1 hroot)

/-- The search for another target probes targets only. They lie beneath the root by plain names, so
the confined filesystem answers them too. -/
theorem findAlias_confined (root : SourceRoot δ) (path : FragmentPath) (identity : FileIdentity)
    (candidates : List FragmentPath) :
    root.findAlias (fs.confined paths denied) path identity candidates =
      root.findAlias fs path identity candidates := by
  have hidentity : ∀ candidate, root.targetIdentity (fs.confined paths denied) candidate =
      root.targetIdentity fs candidate := by
    intro candidate
    rw [SourceRoot.targetIdentity, metadata_confined root (relativePath_descends candidate)]
    rfl
  induction candidates with
  | nil => rfl
  | cons candidate candidates ih => rw [SourceRoot.findAlias, SourceRoot.findAlias, hidentity, ih]

/-- Opening a target for writing is not denied. -/
theorem openWith_confined (root : SourceRoot δ) (path : FragmentPath) (options : OpenOptions) :
    (fs.confined paths denied).dirOpenWith root.directory (relativePath path) options =
      fs.dirOpenWith root.directory (relativePath path) options := if_pos (relativePath_descends path)

/-- The writes of external outputs stay beneath the source root. Creation and truncation both go by
the path of the fragment. -/
theorem writeExternal_confined (root : SourceRoot δ) (path : FragmentPath) (bytes : Bytes)
    (write : ExternalWrite) (absentTargets : List FragmentPath) :
    (realFilesystem (fs.confined paths denied) root).writeExternal path bytes write absentTargets =
      (realFilesystem fs root).writeExternal path bytes write absentTargets := by
  cases write with
  | createNew =>
    refine bind_congr_ok (openWith_confined root path _) fun file _ _ _ => ?_
    refine bind_congr_ok rfl fun metadata _ _ _ => bind_congr_ok rfl fun _ _ _ _ => ?_
    exact findAlias_confined root path metadata.identity absentTargets
  | createOrTruncate =>
    refine bind_congr_ok ?_ fun _ _ _ _ => rfl
    exact bind_congr_ok (openWith_confined root path _) fun _ _ _ _ => rfl

/-- Creating the directories above a target is not denied. -/
theorem createDirAll_confined (root : SourceRoot δ) {path : FragmentPath} {parent : Path}
    (h : nonemptyParent (relativePath path) = some parent) :
    (realFilesystem (fs.confined paths denied) root).createDirAll parent =
      (realFilesystem fs root).createDirAll parent := by
  obtain ⟨hparent, -⟩ := Option.filter_eq_some_iff.1 h
  rw [Path.parent] at hparent
  split at hparent
  · cases hparent
  · cases hparent
    exact if_pos (descends_of_initial (List.dropLast_prefix _))

/-- The outputs are written as before. The induction is on them. Each of them lies beneath the
source root, and so do its directories. -/
theorem commitExternals_confined {root : SourceRoot δ} (hroot : root.path = paths.sourceRoot)
    (absentTargets completed : List FragmentPath) (outputs : List ExternalOutput) :
    commitExternals (access.confined paths refusal) (realFilesystem (fs.confined paths denied) root)
        absentTargets completed outputs =
      commitExternals access (realFilesystem fs root) absentTargets completed outputs := by
  induction outputs generalizing completed with
  | nil => rfl
  | cons output outputs ih =>
    have hbeneath : (root.namedPath (relativePath output.path)).Beneath paths.sourceRoot :=
      hroot ▸ namedPath_beneath root output.path
    have hwrite : flatten ((access.confined paths refusal).write (root.namedPath
          (relativePath output.path)) ((realFilesystem (fs.confined paths denied) root).writeExternal
            output.path output.bytes output.write absentTargets)) =
        flatten (access.write (root.namedPath (relativePath output.path))
          ((realFilesystem fs root).writeExternal output.path output.bytes output.write
            absentTargets)) :=
      around_confined (.inr hbeneath) (writeExternal_confined root _ _ _ _)
    rw [commitExternals, commitExternals]
    refine bind_congr_ok ?_ fun completed _ _ _ => ih completed
    rw [commitExternal_eq, commitExternal_eq]
    refine bind_congr_ok ?_ fun _ _ _ _ => bind_congr_ok ?_ fun _ _ _ _ => rfl
    · rw [createParent, createParent]
      split
      · next parent hparent => rw [createDirAll_confined root hparent]; rfl
      · rfl
    · exact congrArg _ hwrite

/-- The commit is as before, and so is its write of the document. Every output is a target, and its
access is one that the policy still decides. -/
theorem commitUsing_confined {root : SourceRoot δ} (hroot : root.path = paths.sourceRoot)
    (outputs : List ExternalOutput) (absentTargets : List FragmentPath) (bytes : Option Bytes) :
    commitUsing (access.confined paths refusal) (realFilesystem (fs.confined paths denied) root)
        outputs absentTargets (bytes.map fun bytes => ⟨paths.document, bytes⟩) =
      commitUsing access (realFilesystem fs root) outputs absentTargets
        (bytes.map fun bytes => ⟨paths.document, bytes⟩) := by
  refine bind_congr_ok rfl fun _ _ _ _ => bind_congr_ok (commitExternals_confined hroot _ _ _)
    fun completed _ _ _ => ?_
  cases bytes with
  | none => rfl
  | some bytes =>
    have hwrite : (realFilesystem (fs.confined paths denied) root).writeDocument paths.document bytes =
        (realFilesystem fs root).writeDocument paths.document bytes := if_pos rfl
    exact congrArg (Run.mapError (commitFailure completed (.writeDocument paths.document)))
      (around_confined (.inl rfl) hwrite)

variable [Sha256]

/-- The part behind the discovery is as before, whatever was decided. Only its commit touches the
filesystem. -/
theorem mutateWithAccess_confined {inventory : Inventory δ}
    (hroot : inventory.sourceRoot.path = paths.sourceRoot)
    (classified : List (InventoryEntry × Classification)) (selection : SelectionKind)
    (op : Operation) :
    mutateWithAccess (realFilesystem (fs.confined paths denied)) (access.confined paths refusal)
        paths.document inventory classified selection op =
      mutateWithAccess (realFilesystem fs) access paths.document inventory classified selection op := by
  refine bind_congr_ok rfl fun outputs _ _ _ => ?_
  obtain ⟨prepared, documentOutput⟩ := outputs
  dsimp only
  split
  · rfl
  · rw [commitUsing_confined hroot]

/-- A run is as before, on a filesystem and under a policy that are confined to the resolved paths.
What they answer elsewhere does not matter. -/
theorem executeWithAccess_confined {request : Request}
    (h : resolvePaths request.cwd request.document request.sourceRoot = .ok paths) (denied : IoError)
    (refusal : ε) :
    executeWithAccess (fs.confined paths denied) (access.confined paths refusal) request =
      executeWithAccess fs access request := by
  refine bind_congr_ok rfl fun resolved s t hresolved => ?_
  obtain rfl : resolved = paths := by
    obtain ⟨hok, -⟩ := operation_eq_ok.1 hresolved
    rw [h] at hok
    exact (Except.ok.inj hok).symm
  refine bind_congr_ok (congrArg _ discoverForDocument_confined) fun inventory u v hinventory => ?_
  rw [discoverForDocument_confined] at hinventory
  have hroot := discoverForDocument_root (Run.mapError_eq_ok.1 hinventory)
  refine bind_congr_ok rfl fun selected _ _ _ => ?_
  dsimp only
  cases request.mode with
  | status => rfl
  | mutate op => exact mutateWithAccess_confined hroot _ _ op

/-- A command reaches nothing but its source root, what lies beneath it by plain names, and its
document: a system that refuses everything else is the same to it. -/
theorem execute_confined {coordinated : AccessPolicy σ CoordinatedAccessFailure} {request : Request}
    (h : resolvePaths request.cwd request.document request.sourceRoot = .ok paths) (denied : IoError)
    (refusal : CoordinatedAccessFailure) :
    execute (fs.confined paths denied) (coordinated.confined paths refusal) request =
      execute fs coordinated request :=
  congrArg (Run.mapError coordinatedError) (executeWithAccess_confined h denied refusal)

end

/-- The refusal of whatever a command must not reach. -/
def sampleRefusal : CoordinatedAccessFailure := ⟨.read, ⟨false, []⟩, .pathNotRepresentable⟩

/-- A confined command extracts a fragment. All else is denied and refused, and the fragment is
extracted all the same. -/
theorem execute_confined_sample :
    let confined := @execute lfDigest _ _ _ ((treeFilesystem []).confined sampleResolved ⟨.other, ""⟩)
      (sampleAccess.confined sampleResolved sampleRefusal) sampleRequest
    confined = @execute lfDigest _ _ _ (treeFilesystem []) sampleAccess sampleRequest ∧
      (confined sampleTree).1.isOk := by
  let _ : Sha256 := lfDigest
  have heq : execute ((treeFilesystem []).confined sampleResolved ⟨.other, ""⟩)
      (sampleAccess.confined sampleResolved sampleRefusal) sampleRequest =
        execute (treeFilesystem []) sampleAccess sampleRequest :=
    execute_confined rfl ⟨.other, ""⟩ sampleRefusal
  refine ⟨heq, ?_⟩
  rw [heq]
  decide +kernel

end Zwirn.Sync
