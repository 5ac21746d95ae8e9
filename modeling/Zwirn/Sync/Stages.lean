import Zwirn.Sync.Engine

/-!
# The stages of a command

A command discovers, selects and prepares before it commits. `Prepares` says what a mutating command
has when it starts to commit. A command that gets there is its commit (`Prepares.executeUsing_eq`),
and one that does not has only discovered (`executeUsing_discovers`).
-/

namespace Zwirn.Sync

open Lib Fragment

/-! ## Failures -/

/-- The error is found before anything is committed. -/
def Error.BeforeCommit : Error → Prop
  | .commit _ | .coordination _ => False
  | _ => True

/-- Every failure of an outcome is found before anything is committed. -/
def FailsBeforeCommit {α : Type} (x : Except Error α) : Prop :=
  ∀ error, x = .error error → error.BeforeCommit

section
variable {ε α β : Type}

/-- Two steps one after the other fail before the commit if each of them does. -/
theorem FailsBeforeCommit.bind {x : Except Error α} {f : α → Except Error β}
    (hx : FailsBeforeCommit x) (hf : ∀ a, FailsBeforeCommit (f a)) :
    FailsBeforeCommit (x >>= f) := FailsIn.bind hx fun a _ => hf a

/-- What returns does not fail. -/
theorem FailsBeforeCommit.ok (a : α) : FailsBeforeCommit (.ok a) := FailsIn.ok a

/-- A step whose errors are all renamed to such errors fails before the commit. -/
theorem FailsBeforeCommit.mapError {f : ε → Error} (hf : ∀ e, (f e).BeforeCommit)
    (x : Except ε α) : FailsBeforeCommit (mapError f x) := FailsIn.mapError_of hf x

/-- So does a missing value with such an error, -/
theorem FailsBeforeCommit.okOr {e : Error} (he : e.BeforeCommit) (o : Option α) :
    FailsBeforeCommit (okOr o e) := FailsIn.okOr he o

/-- a check that is not met, -/
theorem FailsBeforeCommit.require {e : Error} (he : e.BeforeCommit) (c : Prop) [Decidable c] :
    FailsBeforeCommit (require c e) := FailsIn.require he c

/-- and a loop whose rounds all do. -/
theorem FailsBeforeCommit.foldlM {f : β → α → Except Error β} (hf : ∀ b a, FailsBeforeCommit (f b a))
    (xs : List α) (b : β) : FailsBeforeCommit (xs.foldlM f b) :=
  FailsIn.foldlM (fun b a _ => hf b a) b

end

/-- The paths of a request are resolved before the commit. -/
theorem resolvePaths_failsBeforeCommit (cwd document : Path) (sourceRoot : Option Path) :
    FailsBeforeCommit (resolvePaths cwd document sourceRoot) := by
  refine .bind (.require (by trivial) _) fun _ => ?_
  cases sourceRoot with
  | some sourceRoot => exact .ok _
  | none => exact .bind (.okOr (by trivial) _) fun _ => .ok _

/-- The decisions are entered before the commit. An embed without a file is the only failure, and it
would be a panic. -/
theorem prepare_failsBeforeCommit (decisions : List (InventoryEntry × Decision)) :
    FailsBeforeCommit (prepare decisions) := by
  refine .foldlM (fun prepared d => ?_) _ _
  unfold prepareOne
  split
  · exact .ok _
  · exact .ok _
  · next action _ =>
    refine .bind ?_ fun _ => .ok _
    cases action with
    | record | extract => exact .ok _
    | embed => exact .bind (.okOr (by trivial) _) fun _ => .ok _

/-- The new document is validated before the commit. -/
theorem validatePreparedDocument_failsBeforeCommit (bytes : Bytes) :
    FailsBeforeCommit (validatePreparedDocument bytes) := by
  refine .bind (.mapError (fun _ => by trivial) _) fun _ => .bind (.foldlM (fun paths n => ?_) _ _)
    fun _ => .ok _
  refine .bind (.mapError (fun _ => by trivial) _) fun _ => .foldlM (fun paths fragment => ?_) _ _
  exact .bind (.require (by trivial) _) fun _ => .ok _

section
variable [Sha256]

/-- The new document is made before the commit. Each stage of it fails with an error of the
preparation. -/
theorem materializeDocument_failsBeforeCommit (bytes : Bytes)
    (nodeUpdates : OrdMap Nat (List FragmentUpdate)) :
    FailsBeforeCommit (materializeDocument bytes nodeUpdates) := by
  refine .bind (.mapError (fun _ => by trivial) _) fun document =>
    .bind (.foldlM (fun rewritten node => ?_) _ _) fun _ => ?_
  · refine .bind (.okOr (by trivial) _) fun _ => .bind (.mapError (fun _ => by trivial) _) fun _ =>
      .bind (.mapError (fun _ => by trivial) _) fun out => ?_
    cases out with
    | owned text => exact .ok _
    | borrowed text => exact .ok _
  · refine .bind (.mapError (fun _ => by trivial) _) fun out => ?_
    cases out with
    | owned bytes => exact .bind (validatePreparedDocument_failsBeforeCommit _) fun _ => .ok _
    | borrowed bytes => exact .ok _

/-- All that a mutating command computes is computed before the commit. -/
theorem prepareOutputs_failsBeforeCommit (bytes : Bytes)
    (classified : List (InventoryEntry × Classification)) (selection : SelectionKind)
    (op : Operation) : FailsBeforeCommit (prepareOutputs bytes classified selection op) := by
  refine .bind (.mapError (fun e => ?_) _) fun _ => .bind (prepare_failsBeforeCommit _) fun _ =>
    .bind (materializeDocument_failsBeforeCommit _ _) fun _ => .ok _
  cases e with
  | forceRequiresExplicitSelection | unreachable => trivial
  | invalidForcedState index state =>
    simp only [mapPlanError]
    split <;> trivial

/-! ## The commit -/

/-- What a mutating command has when it starts to commit. Everything that the commit writes is fixed
by it. -/
structure Batch (δ : Type) where
  paths : ResolvedPaths
  inventory : Inventory δ
  selected : List InventoryEntry
  op : Operation
  prepared : Prepared
  output : Option Bytes

section
variable {σ δ φ ε : Type} (fs : FileSystem σ δ φ)
  (commitFilesystem : SourceRoot δ → CommitFilesystem σ) (access : AccessPolicy σ ε)

namespace Batch

/-- The outputs of the batch: one for each extracted entry, in path order. -/
def external (b : Batch δ) : List ExternalOutput := b.prepared.extracted.map externalOutput

/-- The new document, at the path of the old one. -/
def document (b : Batch δ) : Option DocumentOutput :=
  b.output.map fun bytes => ⟨b.paths.document, bytes⟩

/-- The report of the batch, which is ready before it is committed. -/
def report (b : Batch δ) : Report := ⟨b.prepared.reportEntries, exitState b.prepared.attention⟩

/-- Writes the outputs of the batch. -/
def commit (b : Batch δ) : Run σ (PolicyFailure (EngineAccessFailure ε) Error) Unit :=
  (commitUsing access (commitFilesystem b.inventory.sourceRoot) b.external
    (absentTargets b.inventory.entries) b.document).mapError
      fun failure => (failure.mapAccess .commit).mapOperation .commit

end Batch

/-- The request gets to its commit with the batch `b` in the state `t`. Each field is a stage of the
request, in the order of the source. -/
structure Prepares (request : Request) (s : σ) (b : Batch δ) (t : σ) : Prop where
  paths : resolvePaths request.cwd request.document request.sourceRoot = .ok b.paths
  discovered :
    Inventory.discoverForDocument fs b.paths.sourceRoot b.paths.document access s =
      (.ok b.inventory, t)
  selected : b.inventory.select request.selectors = .ok b.selected
  mode : request.mode = .mutate b.op
  prepared : prepareOutputs b.inventory.documentBytes (classifyEntries b.selected)
    (selectionKind request.selectors) b.op = .ok (b.prepared, b.output)

/-- What discovery, as a part of the request, does. -/
def discoverRequest (request : Request) :
    Run σ (PolicyFailure (EngineAccessFailure ε) Error) (ResolvedPaths × Inventory δ) := do
  let paths ← operation (resolvePaths request.cwd request.document request.sourceRoot)
  let inventory ← (Inventory.discoverForDocument fs paths.sourceRoot paths.document access).mapError
    fun failure => (failure.mapAccess .discovery).mapOperation .inventory
  pure (paths, inventory)

/-- A failure of a command that has written nothing. -/
def EarlyFailure : PolicyFailure (EngineAccessFailure ε) Error → Prop
  | .access failure => failure.completed = []
  | .operation error => error.BeforeCommit

variable {fs access} {request : Request} {s : σ}

/-- A request that is prepared was discovered, with the inventory of its batch. -/
theorem Prepares.discoverRequest_eq {b : Batch δ} {t : σ} (h : Prepares fs access request s b t) :
    discoverRequest fs access request s = (.ok (b.paths, b.inventory), t) := by
  unfold discoverRequest
  rw [Run.bind_of_ok (operation_of_ok h.paths), Run.bind_of_ok (t := t) (by
    rw [Run.mapError_apply, h.discovered]; rfl)]
  rfl

/-- A command that is prepared commits what it has to write. -/
theorem Prepares.executeUsing_eq {b : Batch δ} {t : σ} (h : Prepares fs access request s b t) :
    executeUsing fs commitFilesystem access request s =
      (if b.prepared.extracted.isEmpty ∧ b.output.isNone then pure b.report
        else b.commit commitFilesystem access >>= fun _ => pure b.report) t := by
  unfold executeUsing
  rw [Run.bind_of_ok (operation_of_ok h.paths), Run.bind_of_ok (t := t) (by
    rw [Run.mapError_apply, h.discovered]; rfl)]
  rw [Run.bind_of_ok (operation_of_ok (by rw [h.selected]; rfl)), h.mode]
  dsimp only [mutateWithAccess]
  rw [Run.bind_of_ok (operation_of_ok h.prepared)]
  rfl

/-- A command that does not get to a commit has discovered, at most. The proof follows the command,
and each of its steps fails, ends it, or leads to the next one. -/
theorem executeUsing_discovers (h : ¬ ∃ b t, Prepares fs access request s b t) :
    (executeUsing fs commitFilesystem access request s).2 =
        (discoverRequest fs access request s).2 ∧
      (∀ report, (executeUsing fs commitFilesystem access request s).1 = .ok report →
        ∃ found, (discoverRequest fs access request s).1 = .ok found) ∧
      ∀ failure, (executeUsing fs commitFilesystem access request s).1 = .error failure →
        EarlyFailure failure := by
  unfold executeUsing discoverRequest
  cases hpaths : resolvePaths request.cwd request.document request.sourceRoot with
  | error e =>
    rw [Run.bind_of_error (operation_of_error rfl), Run.bind_of_error (operation_of_error rfl)]
    refine ⟨rfl, (fun _ hr => by cases hr), fun failure hfailure => ?_⟩
    cases hfailure
    exact resolvePaths_failsBeforeCommit _ _ _ _ hpaths
  | ok paths =>
    rw [Run.bind_of_ok (operation_of_ok rfl), Run.bind_of_ok (operation_of_ok rfl)]
    cases hdiscovered :
        Inventory.discoverForDocument fs paths.sourceRoot paths.document access s with
    | mk r t =>
      have hmapped := Run.mapError_apply (fun failure : PolicyFailure ε InventoryError =>
          (failure.mapAccess EngineAccessFailure.discovery).mapOperation Error.inventory)
        (Inventory.discoverForDocument fs paths.sourceRoot paths.document access) s
      rw [hdiscovered] at hmapped
      cases r with
      | error e =>
        rw [Run.bind_of_error hmapped, Run.bind_of_error hmapped]
        refine ⟨rfl, (fun _ hr => by cases hr), fun failure hfailure => ?_⟩
        cases hfailure
        cases e with
        | access e => rfl
        | operation e => trivial
      | ok inventory =>
        rw [Run.bind_of_ok hmapped, Run.bind_of_ok hmapped]
        cases hselected : inventory.select request.selectors with
        | error e =>
          rw [Run.bind_of_error (operation_of_error (x := mapError Error.selector (.error e)) rfl)]
          refine ⟨rfl, (fun _ hr => by cases hr), fun failure hfailure => ?_⟩
          cases hfailure
          trivial
        | ok selected =>
          rw [Run.bind_of_ok (operation_of_ok (x := mapError Error.selector (.ok selected)) rfl)]
          cases hmode : request.mode with
          | status => exact ⟨rfl, fun _ _ => ⟨_, rfl⟩, fun failure hfailure => by cases hfailure⟩
          | mutate op =>
            dsimp only [mutateWithAccess]
            cases hprepared : prepareOutputs inventory.documentBytes (classifyEntries selected)
                (selectionKind request.selectors) op with
            | error e =>
              rw [Run.bind_of_error (operation_of_error rfl)]
              refine ⟨rfl, (fun _ hr => by cases hr), fun failure hfailure => ?_⟩
              cases hfailure
              exact prepareOutputs_failsBeforeCommit _ _ _ _ _ hprepared
            | ok prepared =>
              exact absurd ⟨⟨paths, inventory, selected, op, prepared.1, prepared.2⟩, t, hpaths,
                hdiscovered, hselected, hmode, hprepared⟩ h

end

end

end Zwirn.Sync
