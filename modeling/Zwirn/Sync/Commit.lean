import Zwirn.Sync.Files

/-!
# Ordered commit

`commitUsing` writes the prepared external outputs in path order and the document behind them, and
stops at the first failure. `CommitFilesystem` is what it needs of the filesystem, and
`realFilesystem` implements it beneath a source root. The code is in `src/commit.rs`.
-/

namespace Zwirn.Sync

open Lib Fragment

/-- How a target is written: as a new file, or over what is there. -/
inductive ExternalWrite
  | createNew
  | createOrTruncate
deriving DecidableEq, Repr

/-- A fully prepared external fragment output. -/
structure ExternalOutput where
  path : FragmentPath
  bytes : Bytes
  write : ExternalWrite
deriving DecidableEq

/-- A fully prepared document output. -/
structure DocumentOutput where
  destination : Path
  bytes : Bytes
deriving DecidableEq

/-- A refused access, with the external writes that completed before it. -/
structure CommitAccessFailure (ε : Type) where
  source : ε
  completed : List FragmentPath

/-- The stage and destination at which a commit failed. -/
inductive CommitFailure
  | externalOrder (previous next : FragmentPath)
  | createExternalParent (path : FragmentPath) (destination : Path) (source : IoError)
  | writeExternal (path : FragmentPath) (destination : Path) (source : IoError)
  | createdTargetAlias (createdPath otherPath : FragmentPath)
  | writeDocument (destination : Path) (source : IoError)
deriving DecidableEq

/-- A commit failure together with external writes that completed before it. -/
structure CommitError where
  completed : List FragmentPath
  failure : CommitFailure
deriving DecidableEq

namespace CommitFailure

/-- The failure behind the writes that completed before it. -/
def after (failure : CommitFailure) (completed : List FragmentPath) : CommitError :=
  ⟨completed, failure⟩

/-- The failure before anything was written. -/
def beforeWrites (failure : CommitFailure) : CommitError := failure.after []

end CommitFailure

/-- What a commit does to the filesystem. A written external output returns the other target, if
any, that the new file turned out to be. -/
structure CommitFilesystem (σ : Type) where
  externalDestination : FragmentPath → Path
  createDirAll : Path → Run σ IoError Unit
  writeExternal : FragmentPath → Bytes → ExternalWrite → List FragmentPath →
    Run σ IoError (Option FragmentPath)
  writeDocument : Path → Bytes → Run σ IoError Unit

/-- The paths of the outputs are strictly increasing. Neighbours are compared. -/
def validateOrder : List ExternalOutput → Except CommitError Unit
  | previous :: next :: rest => do
    require (¬ previous.path ≥ next.path)
      (CommitFailure.externalOrder previous.path next.path).beforeWrites
    validateOrder (next :: rest)
  | _ => pure ()

/-- The directory above a target, if it is not the source root itself. -/
def nonemptyParent (path : Path) : Option Path :=
  path.parent.filter fun parent => parent ≠ ⟨false, []⟩

section
variable {σ ε : Type} (access : AccessPolicy σ ε) (filesystem : CommitFilesystem σ)

/-- A failed access with the writes completed before it. -/
def commitFailure (completed : List FragmentPath) (failure : IoError → CommitFailure) :
    PolicyFailure ε IoError → PolicyFailure (CommitAccessFailure ε) CommitError
  | .access source => .access ⟨source, completed⟩
  | .operation source => .operation ((failure source).after completed)

/-- Writes one output behind the completed ones. The output counts as completed when its write has
returned, also where its file turns out to be that of another target. -/
def commitExternal (absentTargets completed : List FragmentPath) (output : ExternalOutput) :
    Run σ (PolicyFailure (CommitAccessFailure ε) CommitError) (List FragmentPath) := do
  match nonemptyParent (relativePath output.path) with
  | some parent =>
    (filesystem.createDirAll parent).mapError fun source => .operation
      ((CommitFailure.createExternalParent output.path
        (filesystem.externalDestination output.path) source).after completed)
  | none => pure ()
  let destination := filesystem.externalDestination output.path
  let aliasedTarget ← (flatten (access.write destination (filesystem.writeExternal output.path
    output.bytes output.write absentTargets))).mapError
      (commitFailure completed (.writeExternal output.path destination))
  let completed := completed ++ [output.path]
  match aliasedTarget with
  | some otherPath =>
    .fail (.operation ((CommitFailure.createdTargetAlias output.path otherPath).after completed))
  | none => pure completed

/-- Writes the outputs one by one, and stops at the first failure. The completed ones are carried
along, to be named by it. -/
def commitExternals (absentTargets : List FragmentPath) :
    List FragmentPath → List ExternalOutput →
    Run σ (PolicyFailure (CommitAccessFailure ε) CommitError) (List FragmentPath)
  | completed, [] => pure completed
  | completed, output :: outputs => do
    let completed ← commitExternal access filesystem absentTargets completed output
    commitExternals absentTargets completed outputs

/-- Writes the document, if there is a new one, behind all external files. A failure names the
external files that were written before. -/
def commitDocument (completed : List FragmentPath) :
    Option DocumentOutput → Run σ (PolicyFailure (CommitAccessFailure ε) CommitError) Unit
  | some document =>
    (flatten (access.write document.destination
      (filesystem.writeDocument document.destination document.bytes))).mapError
        (commitFailure completed (.writeDocument document.destination))
  | none => pure ()

/-- External files are written in their order, which is the strict order of their paths, followed
by the document. -/
def commitUsing (external : List ExternalOutput) (absentTargets : List FragmentPath)
    (document : Option DocumentOutput) :
    Run σ (PolicyFailure (CommitAccessFailure ε) CommitError) Unit := do
  operation (validateOrder external)
  let completed ← commitExternals access filesystem absentTargets [] external
  commitDocument access filesystem completed document

end

/-- The filesystem beneath a source root. Targets are reached through the handle of the root, and
the document by its path. -/
def realFilesystem {σ δ φ : Type} (fs : FileSystem σ δ φ) (root : SourceRoot δ) :
    CommitFilesystem σ where
  externalDestination path := root.namedPath (relativePath path)
  createDirAll path := root.createDirAll fs path
  writeExternal path bytes write absentTargets :=
    match write with
    | .createNew => root.createTarget fs path bytes absentTargets
    | .createOrTruncate => do
      root.replaceTarget fs path bytes
      pure none
  writeDocument path bytes := fs.write path bytes

/-! ## How a commit fails -/

/-- A commit attempts outputs in strictly increasing order of their paths. So no output comes
twice. -/
theorem validateOrder_eq_ok {outputs : List ExternalOutput} {u : Unit} :
    validateOrder outputs = .ok u ↔ (outputs.map ExternalOutput.path).Pairwise (· < ·) := by
  rw [← List.isChain_iff_pairwise]
  induction outputs with
  | nil => simp [validateOrder]
  | cons previous rest ih =>
    cases rest with
    | nil => simp [validateOrder]
    | cons next rest =>
      rw [validateOrder, Except.bind_eq_ok, List.map_cons, List.map_cons, List.isChain_cons_cons,
        ← List.map_cons, ← ih]
      simp only [require_eq_ok, ge_iff_le, not_le, exists_const, ih]

/-- The failure is that of an access or of a write, and not one of the order of the outputs. -/
def CommitFailure.OfWrite : CommitFailure → Prop
  | .externalOrder _ _ => False
  | _ => True

/-- The failure is one of the filesystem. -/
def CommitFailure.OfIo : CommitFailure → Prop
  | .externalOrder _ _ | .createdTargetAlias _ _ => False
  | _ => True

/-- The filesystem failed a commit, or an access was refused. -/
def FailsInIo {ε : Type} : PolicyFailure (CommitAccessFailure ε) CommitError → Prop
  | .access _ => True
  | .operation error => error.failure.OfIo

/-- What is wrong with a commit, if it is not an access that was refused. -/
def FailsInWrite {ε : Type} : PolicyFailure (CommitAccessFailure ε) CommitError → Prop
  | .access _ => True
  | .operation error => error.failure.OfWrite

section
variable {σ ε : Type} (access : AccessPolicy σ ε) (filesystem : CommitFilesystem σ)

/-- A failed access of a write fails the commit in a write, whether it was refused or its body
failed. -/
theorem commitFailure_failsInWrite {completed : List FragmentPath}
    {failure : IoError → CommitFailure} (h : ∀ e, (failure e).OfWrite)
    (e : PolicyFailure ε IoError) : FailsInWrite (commitFailure completed failure e) := by
  cases e with
  | access source => trivial
  | operation source => exact h source

/-- Creates the directories of an output. A target right beneath the root has none to create. -/
def createParent (completed : List FragmentPath) (output : ExternalOutput) :
    Run σ (PolicyFailure (CommitAccessFailure ε) CommitError) Unit :=
  match nonemptyParent (relativePath output.path) with
  | some parent =>
    (filesystem.createDirAll parent).mapError fun source => .operation
      ((CommitFailure.createExternalParent output.path
        (filesystem.externalDestination output.path) source).after completed)
  | none => pure ()

/-- Writes an output under an access, and fails when its new file is that of another target. -/
def writeOutput (absentTargets completed : List FragmentPath) (output : ExternalOutput) :
    Run σ (PolicyFailure (CommitAccessFailure ε) CommitError) (List FragmentPath) := do
  let destination := filesystem.externalDestination output.path
  let aliasedTarget ← (flatten (access.write destination (filesystem.writeExternal output.path
    output.bytes output.write absentTargets))).mapError
      (commitFailure completed (.writeExternal output.path destination))
  match aliasedTarget with
  | some otherPath => .fail (.operation
      ((CommitFailure.createdTargetAlias output.path otherPath).after (completed ++ [output.path])))
  | none => pure (completed ++ [output.path])

/-- How the write of an output ends: its access is refused, its body fails, or the body returns. In
the last case it is told whether the new file is that of another target. -/
theorem writeOutput_cases {absentTargets completed : List FragmentPath} {output : ExternalOutput}
    {s t : σ} {r : Except (PolicyFailure (CommitAccessFailure ε) CommitError) (List FragmentPath)}
    (h : writeOutput access filesystem absentTargets completed output s = (r, t)) :
    ∃ granted u, access.grant .write (filesystem.externalDestination output.path) s = (granted, u) ∧
      ((∃ e source, granted = .error e ∧ r = .error (.access source) ∧ t = u) ∨
      ∃ result, granted = .ok () ∧ filesystem.writeExternal output.path output.bytes output.write
        absentTargets u = (result, t) ∧
        ((∃ source, result = .error source ∧ r = .error (.operation ((CommitFailure.writeExternal
            output.path (filesystem.externalDestination output.path) source).after completed))) ∨
          (∃ other e, result = .ok (some other) ∧ r = .error e) ∨
          result = .ok none ∧ r = .ok (completed ++ [output.path]))) := by
  unfold writeOutput AccessPolicy.write at h
  rw [Run.bind_apply, Run.mapError_apply, flatten_around] at h
  cases hgrant : access.grant .write (filesystem.externalDestination output.path) s with
  | mk granted u =>
  refine ⟨granted, u, rfl, ?_⟩
  rw [hgrant] at h
  cases granted with
  | error e =>
    cases h
    exact .inl ⟨e, _, rfl, rfl, rfl⟩
  | ok _ =>
    cases hbody : filesystem.writeExternal output.path output.bytes output.write absentTargets u with
    | mk result t' =>
    dsimp only at h
    rw [hbody] at h
    cases result with
    | error source =>
      cases h
      exact .inr ⟨_, rfl, rfl, .inl ⟨source, rfl, rfl⟩⟩
    | ok aliasedTarget =>
      cases aliasedTarget with
      | some other =>
        cases h
        exact .inr ⟨_, rfl, rfl, .inr (.inl ⟨other, _, rfl, rfl⟩)⟩
      | none =>
        cases h
        exact .inr ⟨_, rfl, rfl, .inr (.inr ⟨rfl, rfl⟩)⟩

/-- Creating the directories of an output can fail only in the filesystem. -/
theorem createParent_failsInIo (completed : List FragmentPath) (output : ExternalOutput) :
    Run.FailsIn (@FailsInIo ε) (createParent filesystem completed output) := by
  unfold createParent
  split
  · exact .mapError_of (fun _ => by trivial) _
  · exact .pure _

/-- Writing one output is creating its directories and then writing it. -/
theorem commitExternal_eq (absentTargets completed : List FragmentPath) (output : ExternalOutput) :
    commitExternal access filesystem absentTargets completed output =
      createParent filesystem completed output >>= fun _ =>
        writeOutput access filesystem absentTargets completed output := by
  unfold commitExternal createParent
  split <;> rfl

/-- Writing one output fails in its directories, in its access, in the filesystem, or because its
new file is another target. The order of the outputs plays no part here. -/
theorem commitExternal_failsIn (absentTargets completed : List FragmentPath)
    (output : ExternalOutput) :
    Run.FailsIn FailsInWrite (commitExternal access filesystem absentTargets completed output) := by
  rw [commitExternal_eq]
  refine .bind ?_ fun _ => .bind ?_ fun aliasedTarget => ?_
  · unfold createParent
    split
    · exact .mapError_of (fun _ => by trivial) _
    · exact .pure _
  · exact .mapError_of (commitFailure_failsInWrite fun _ => by trivial) _
  · cases aliasedTarget with
    | some otherPath => exact .fail (by trivial)
    | none => exact .pure _

/-- So does writing all of them, by induction on the outputs. -/
theorem commitExternals_failsIn (absentTargets completed : List FragmentPath)
    (outputs : List ExternalOutput) :
    Run.FailsIn FailsInWrite
      (commitExternals access filesystem absentTargets completed outputs) := by
  induction outputs generalizing completed with
  | nil => exact .pure _
  | cons output outputs ih =>
    exact .bind (commitExternal_failsIn access filesystem absentTargets completed output)
      fun completed => ih completed

/-- A commit of outputs in strict path order fails in a write. The check of the order succeeds, and
the loop and the document fail in their writes only. -/
theorem commitUsing_failsIn {outputs : List ExternalOutput} (absentTargets : List FragmentPath)
    (document : Option DocumentOutput)
    (h : (outputs.map ExternalOutput.path).Pairwise (· < ·)) :
    Run.FailsIn FailsInWrite (commitUsing access filesystem outputs absentTargets document) := by
  have hdocument : ∀ completed,
      Run.FailsIn FailsInWrite (commitDocument access filesystem completed document) := by
    intro completed
    cases document with
    | some document => exact .mapError_of (commitFailure_failsInWrite fun _ => by trivial) _
    | none => exact .pure _
  refine .bind (.ofExcept ?_) fun _ => .bind ?_ hdocument
  · rw [(validateOrder_eq_ok (u := ())).2 h]
    exact .ok _
  · exact commitExternals_failsIn access filesystem absentTargets [] outputs

end

end Zwirn.Sync
