import Zwirn.Lib.Along
import Zwirn.Sync.Engine

/-!
# Commands along a map of states

A command reaches the system only through the operations of its filesystem and its policy. So when
the operations of one system do what those of another one do along a map of states, so does every
command (`executeUsing_along`). This is how a recorded command is compared with the command itself,
and how an invariant that the operations keep is assumed of all states that a command can meet
(`FileSystem.restrict`).
-/

namespace Zwirn.Sync

open Lib Fragment

/-! ## Operations -/

section
variable {σ τ δ φ ε : Type}

/-- The operations of a filesystem do what those of another one do, along a map of states. The map
may forget a part of the state, such as a log of what was done or the proof of an invariant. -/
structure FileSystem.Along (f : σ → τ) (fs : FileSystem σ δ φ) (fs' : FileSystem τ δ φ) : Prop where
  openAmbientDir : ∀ path, Run.Along f (fs.openAmbientDir path) (fs'.openAmbientDir path)
  dirMetadata : ∀ dir path, Run.Along f (fs.dirMetadata dir path) (fs'.dirMetadata dir path)
  dirOpen : ∀ dir path, Run.Along f (fs.dirOpen dir path) (fs'.dirOpen dir path)
  dirOpenWith : ∀ dir path options,
    Run.Along f (fs.dirOpenWith dir path options) (fs'.dirOpenWith dir path options)
  dirCreateDirAll : ∀ dir path,
    Run.Along f (fs.dirCreateDirAll dir path) (fs'.dirCreateDirAll dir path)
  fileOpen : ∀ path, Run.Along f (fs.fileOpen path) (fs'.fileOpen path)
  fileMetadata : ∀ file, Run.Along f (fs.fileMetadata file) (fs'.fileMetadata file)
  readToEnd : ∀ file, Run.Along f (fs.readToEnd file) (fs'.readToEnd file)
  writeAll : ∀ file bytes, Run.Along f (fs.writeAll file bytes) (fs'.writeAll file bytes)
  write : ∀ path bytes, Run.Along f (fs.write path bytes) (fs'.write path bytes)

/-- A policy grants what another one grants, along a map of states. -/
def AccessPolicy.Along (f : σ → τ) (access : AccessPolicy σ ε) (access' : AccessPolicy τ ε) : Prop :=
  ∀ kind path, Run.Along f (access.grant kind path) (access'.grant kind path)

/-- The effects of a commit are those of another one, along a map of states. A commit over the one
is then a commit over the other. -/
structure CommitFilesystem.Along (f : σ → τ) (filesystem : CommitFilesystem σ)
    (filesystem' : CommitFilesystem τ) : Prop where
  externalDestination : ∀ path,
    filesystem'.externalDestination path = filesystem.externalDestination path
  createDirAll : ∀ path, Run.Along f (filesystem.createDirAll path) (filesystem'.createDirAll path)
  writeExternal : ∀ path bytes write absentTargets,
    Run.Along f (filesystem.writeExternal path bytes write absentTargets)
      (filesystem'.writeExternal path bytes write absentTargets)
  writeDocument : ∀ path bytes,
    Run.Along f (filesystem.writeDocument path bytes) (filesystem'.writeDocument path bytes)

end

section
variable {σ τ δ φ ε ε' α : Type} {f : σ → τ} {fs : FileSystem σ δ φ} {fs' : FileSystem τ δ φ}
  {access : AccessPolicy σ ε} {access' : AccessPolicy τ ε}

/-- Joining the two kinds of failure commutes with forgetting a part of the state. -/
theorem flatten_along {x : Run σ ε (Except ε' α)} {y : Run τ ε (Except ε' α)} (h : Run.Along f x y) :
    Run.Along f (flatten x) (flatten y) :=
  .bind (h.mapError _) fun _ => .ofExcept _

/-- An ordinary step knows nothing of the state, so it is the same on both sides. -/
theorem operation_along (x : Except ε' α) :
    Run.Along f (operation x : Run σ (PolicyFailure ε ε') α) (operation x) := .ofExcept _

/-- A body runs under its access along the map, as the access is granted there alike. -/
theorem AccessPolicy.Along.around (h : access.Along f access') (kind : AccessKind) (path : Path)
    {x : Run σ ε' α} {y : Run τ ε' α} (hbody : Run.Along f x y) :
    Run.Along f (flatten (access.around kind path x)) (flatten (access'.around kind path y)) :=
  flatten_along (.bind (h kind path) fun _ => hbody.attempt)

/-! ## Discovery -/

namespace FileSystem.Along
variable (h : fs.Along f fs')
include h

/-- The functions of the discovery follow one by one. Each is put together from operations and steps
that commute with the forgetting, so the rules of the runs are enough. -/
theorem validateOptionalDirectory (root : SourceRoot δ) (path : Path) :
    Run.Along f (validateOptionalDirectory fs root path) (validateOptionalDirectory fs' root path) := by
  refine .bind (h.dirMetadata _ _).attempt fun metadata => ?_
  cases metadata with
  | ok metadata =>
    dsimp only
    split
    · exact .pure _
    · exact .fail _
  | error error =>
    dsimp only
    split
    · exact .pure _
    · exact .fail _

/-- The induction is on the segments that are left. -/
theorem validateParentsFrom (root : SourceRoot δ) (path : FragmentPath) (parent segments : List Str) :
    Run.Along f (validateParentsFrom fs root path parent segments)
      (validateParentsFrom fs' root path parent segments) := by
  induction segments generalizing parent with
  | nil => exact .pure _
  | cons segment segments ih =>
    exact .bind ((h.validateOptionalDirectory root _).mapError _) fun _ => ih _

/-- A target is checked alike, with or without a directory above it. -/
theorem validateParents (root : SourceRoot δ) (path : FragmentPath) :
    Run.Along f (validateParents fs root path) (validateParents fs' root path) := by
  unfold Sync.validateParents
  split
  · exact h.validateParentsFrom root path _ _
  · exact .pure _

/-- An opened target is read alike. -/
theorem readTarget (path : FragmentPath) (target : Path) (file : φ) :
    Run.Along f (readTarget fs path target file) (readTarget fs' path target file) := by
  refine .bind ((h.fileMetadata file).mapError _) fun metadata => ?_
  split
  · exact .fail _
  · exact .bind ((h.readToEnd file).mapError _) fun _ => .pure _

/-- A target is probed, opened and read alike, and its absence is seen on both sides. The same
branch is taken on both sides, since the operations answer alike. -/
theorem readOptionalTarget (root : SourceRoot δ) (path : FragmentPath) (target : Path) :
    Run.Along f (readOptionalTarget fs root path target) (readOptionalTarget fs' root path target) := by
  refine .bind (h.dirMetadata _ _).attempt fun metadata => ?_
  cases metadata with
  | error source =>
    dsimp only
    split
    · exact .pure _
    · exact .fail _
  | ok metadata =>
    dsimp only
    split
    · exact .fail _
    · refine .bind (h.dirOpen _ _).attempt fun file => ?_
      cases file with
      | error source =>
        dsimp only
        split
        · exact .pure _
        · exact .fail _
      | ok file => exact h.readTarget path target file

/-- The document is read alike, with its identity. -/
theorem readDocument (path : Path) :
    Run.Along f (readDocument fs path) (readDocument fs' path) :=
  .bind ((h.fileOpen path).mapError _) fun file => .bind ((h.fileMetadata file).mapError _) fun _ =>
    .bind ((h.readToEnd file).mapError _) fun _ => .pure _

variable (haccess : access.Along f access')
include haccess

/-- One round of the discovery passes the same entry on both sides. -/
theorem discoverEntry (root : SourceRoot δ) (origin : Option DocumentOrigin)
    (identities : OrdMap FileIdentity FragmentPath) (fragment : DiscoveredFragment) :
    Run.Along f (discoverEntry fs access root origin identities fragment)
      (discoverEntry fs' access' root origin identities fragment) := by
  refine .bind ((h.validateParents root _).mapError _) fun _ => .bind (operation_along _) fun _ =>
    .bind (haccess.around .read _ (h.readOptionalTarget root _ _)) fun input => ?_
  cases input with
  | none => exact .pure _
  | some input => exact .bind (operation_along _) fun _ => .pure _

/-- The loop over the fragments, by induction on them. -/
theorem discoverEntries (root : SourceRoot δ) (origin : Option DocumentOrigin)
    (identities : OrdMap FileIdentity FragmentPath) (fragments : List DiscoveredFragment) :
    Run.Along f (discoverEntries fs access root origin identities fragments)
      (discoverEntries fs' access' root origin identities fragments) := by
  induction fragments generalizing identities with
  | nil => exact .pure _
  | cons fragment fragments ih =>
    exact .bind (h.discoverEntry haccess root origin identities fragment) fun found =>
      .bind (ih found.2) fun _ => .pure _

/-- The whole discovery ends alike, and changes the two states in the same way. -/
theorem discoverForDocument (sourceRoot documentPath : Path) :
    Run.Along f (Inventory.discoverForDocument fs sourceRoot documentPath access)
      (Inventory.discoverForDocument fs' sourceRoot documentPath access') := by
  have hroot : Run.Along f (Inventory.openSourceRoot fs sourceRoot)
      (Inventory.openSourceRoot fs' sourceRoot) :=
    .mapError (.bind (h.openAmbientDir _) fun _ => .pure _) _
  refine .bind (hroot.mapError _) fun root =>
    .bind (haccess.around .read _ (h.readDocument documentPath)) fun document => ?_
  exact .bind (operation_along _) fun _ => .bind (operation_along _) fun _ =>
    .bind (h.discoverEntries haccess _ _ _ _) fun _ => .pure _

end FileSystem.Along

/-! ## The commit -/

namespace FileSystem.Along
variable (h : fs.Along f fs')
include h

/-- A target has the same identity on both sides. -/
theorem targetIdentity (root : SourceRoot δ) (path : FragmentPath) :
    Run.Along f (root.targetIdentity fs path) (root.targetIdentity fs' path) :=
  .bind (h.dirMetadata _ _) fun _ => .pure _

/-- The search for another target that is the new file ends alike. The induction is on the
candidates. -/
theorem findAlias (root : SourceRoot δ) (path : FragmentPath) (identity : FileIdentity)
    (candidates : List FragmentPath) :
    Run.Along f (root.findAlias fs path identity candidates)
      (root.findAlias fs' path identity candidates) := by
  induction candidates with
  | nil => exact .pure _
  | cons candidate candidates ih =>
    unfold SourceRoot.findAlias
    split
    · refine .bind (h.targetIdentity root _).attempt fun probe => ?_
      split
      · exact .pure _
      · exact ih
    · exact ih

/-- The effects that a filesystem has beneath a source root. Creating a target is the one that takes
several operations. -/
theorem realFilesystem (root : SourceRoot δ) :
    (realFilesystem fs root).Along f (realFilesystem fs' root) where
  externalDestination _ := rfl
  createDirAll path := h.dirCreateDirAll _ path
  writeExternal path bytes write absentTargets := by
    cases write with
    | createNew =>
      exact .bind (h.dirOpenWith _ _ _) fun file => .bind (h.fileMetadata file) fun _ =>
        .bind (h.writeAll file bytes) fun _ => h.findAlias root path _ absentTargets
    | createOrTruncate =>
      exact .bind (.bind (h.dirOpenWith _ _ _) fun file => h.writeAll file bytes) fun _ => .pure _
  writeDocument path bytes := h.write path bytes

end FileSystem.Along

namespace CommitFilesystem.Along
variable {filesystem : CommitFilesystem σ} {filesystem' : CommitFilesystem τ}
  (h : filesystem.Along f filesystem') (haccess : access.Along f access')
include h haccess

/-- One output is written alike. The directories are created alike, and the body of the write runs
under the same access. -/
theorem commitExternal (absentTargets completed : List FragmentPath) (output : ExternalOutput) :
    Run.Along f (commitExternal access filesystem absentTargets completed output)
      (commitExternal access' filesystem' absentTargets completed output) := by
  rw [commitExternal_eq, commitExternal_eq]
  refine .bind ?_ fun _ => ?_
  · unfold createParent
    rw [h.externalDestination]
    split
    · exact (h.createDirAll _).mapError _
    · exact .pure _
  · unfold writeOutput
    rw [h.externalDestination]
    refine .bind ((haccess.around .write _ (h.writeExternal _ _ _ _)).mapError _) fun found => ?_
    cases found with
    | some other => exact .fail _
    | none => exact .pure _

/-- All outputs are written alike, by induction on them. -/
theorem commitExternals (absentTargets completed : List FragmentPath)
    (outputs : List ExternalOutput) :
    Run.Along f (commitExternals access filesystem absentTargets completed outputs)
      (commitExternals access' filesystem' absentTargets completed outputs) := by
  induction outputs generalizing completed with
  | nil => exact .pure _
  | cons output outputs ih =>
    exact .bind (h.commitExternal haccess absentTargets completed output) fun completed => ih completed

/-- The whole commit ends alike, with the same writes behind it. -/
theorem commitUsing (external : List ExternalOutput) (absentTargets : List FragmentPath)
    (document : Option DocumentOutput) :
    Run.Along f (commitUsing access filesystem external absentTargets document)
      (commitUsing access' filesystem' external absentTargets document) := by
  refine .bind (operation_along _) fun _ =>
    .bind (h.commitExternals haccess absentTargets [] external) fun completed => ?_
  cases document with
  | none => exact .pure _
  | some document =>
    exact (haccess.around .write _ (h.writeDocument _ _)).mapError _

end CommitFilesystem.Along

/-! ## Commands -/

variable [Sha256] {commitFilesystem : SourceRoot δ → CommitFilesystem σ}
  {commitFilesystem' : SourceRoot δ → CommitFilesystem τ}

/-- A command does along the map what the operations do along it. Either map may forget something,
such as a log or an invariant. What the command returns is the same on both sides. -/
theorem executeUsing_along (h : fs.Along f fs')
    (hcommit : ∀ root, (commitFilesystem root).Along f (commitFilesystem' root))
    (haccess : access.Along f access') (request : Request) :
    Run.Along f (executeUsing fs commitFilesystem access request)
      (executeUsing fs' commitFilesystem' access' request) := by
  refine .bind (operation_along _) fun paths =>
    .bind ((h.discoverForDocument haccess _ _).mapError _) fun inventory =>
      .bind (operation_along _) fun selected => ?_
  cases request.mode with
  | status => exact .pure _
  | mutate op =>
    refine .bind (operation_along _) fun outputs => ?_
    obtain ⟨prepared, documentOutput⟩ := outputs
    dsimp only
    split
    · exact .pure _
    · exact .bind (((hcommit _).commitUsing haccess _ _ _).mapError _) fun _ => .pure _

/-- A command over a filesystem does along the map what the operations of the filesystem do along
it. -/
theorem executeWithAccess_along (h : fs.Along f fs') (haccess : access.Along f access')
    (request : Request) :
    Run.Along f (executeWithAccess fs access request) (executeWithAccess fs' access' request) :=
  executeUsing_along h h.realFilesystem haccess request

end

/-! ## Invariants of the operations -/

section
variable {σ δ φ ε : Type}

/-- Every operation of the filesystem keeps the invariant, whether it succeeds or fails. What holds
of the first state of a run then holds of every state of it. -/
structure FileSystem.Keeps (fs : FileSystem σ δ φ) (P : σ → Prop) : Prop where
  openAmbientDir : ∀ path s, P s → P (fs.openAmbientDir path s).2
  dirMetadata : ∀ dir path s, P s → P (fs.dirMetadata dir path s).2
  dirOpen : ∀ dir path s, P s → P (fs.dirOpen dir path s).2
  dirOpenWith : ∀ dir path options s, P s → P (fs.dirOpenWith dir path options s).2
  dirCreateDirAll : ∀ dir path s, P s → P (fs.dirCreateDirAll dir path s).2
  fileOpen : ∀ path s, P s → P (fs.fileOpen path s).2
  fileMetadata : ∀ file s, P s → P (fs.fileMetadata file s).2
  readToEnd : ∀ file s, P s → P (fs.readToEnd file s).2
  writeAll : ∀ file bytes s, P s → P (fs.writeAll file bytes s).2
  write : ∀ path bytes s, P s → P (fs.write path bytes s).2

/-- The filesystem over the states that satisfy an invariant. Each operation keeps the invariant, so
its result is a state with the invariant again. -/
def FileSystem.restrict (fs : FileSystem σ δ φ) {P : σ → Prop} (h : fs.Keeps P) :
    FileSystem {s // P s} δ φ where
  openAmbientDir path := (fs.openAmbientDir path).restrict (h.openAmbientDir path)
  dirMetadata dir path := (fs.dirMetadata dir path).restrict (h.dirMetadata dir path)
  dirOpen dir path := (fs.dirOpen dir path).restrict (h.dirOpen dir path)
  dirOpenWith dir path options :=
    (fs.dirOpenWith dir path options).restrict (h.dirOpenWith dir path options)
  dirCreateDirAll dir path := (fs.dirCreateDirAll dir path).restrict (h.dirCreateDirAll dir path)
  fileOpen path := (fs.fileOpen path).restrict (h.fileOpen path)
  fileMetadata file := (fs.fileMetadata file).restrict (h.fileMetadata file)
  readToEnd file := (fs.readToEnd file).restrict (h.readToEnd file)
  writeAll file bytes := (fs.writeAll file bytes).restrict (h.writeAll file bytes)
  write path bytes := (fs.write path bytes).restrict (h.write path bytes)

/-- A filesystem on the states with an invariant it keeps is the filesystem itself, once the
invariant is forgotten. -/
theorem FileSystem.restrict_along (fs : FileSystem σ δ φ) {P : σ → Prop} (h : fs.Keeps P) :
    (fs.restrict h).Along Subtype.val fs :=
  ⟨fun _ _ => rfl, fun _ _ _ => rfl, fun _ _ _ => rfl, fun _ _ _ _ => rfl, fun _ _ _ => rfl,
    fun _ _ => rfl, fun _ _ => rfl, fun _ _ => rfl, fun _ _ _ => rfl, fun _ _ _ => rfl⟩

/-- The policy over the states that satisfy an invariant. -/
def AccessPolicy.restrict (access : AccessPolicy σ ε) {P : σ → Prop}
    (h : ∀ kind path s, P s → P (access.grant kind path s).2) : AccessPolicy {s // P s} ε where
  grant kind path := (access.grant kind path).restrict (h kind path)

end

end Zwirn.Sync
