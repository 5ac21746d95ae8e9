import Zwirn.Adls.Rewrite
import Zwirn.Fragment.Rewrite
import Zwirn.Sync.Commit
import Zwirn.Sync.Inventory
import Zwirn.Sync.Reconcile

/-!
# The engine

`executeUsing` discovers the inventory, classifies the selected fragments, and either reports their
states or plans the batch, prepares every output and commits them. Everything between discovery and
commit is pure: `prepare` collects the updates of the document and the fragments to extract, and
`materializeDocument` computes the new document. The code is in `src/engine.rs`.
-/

namespace Zwirn.Sync

open Lib Fragment

/-- A read-only inspection or a mutating synchronization operation. -/
inductive Mode
  | status
  | mutate (operation : Operation)
deriving DecidableEq

/-- One resolved library request. Relative paths are interpreted from `cwd`. -/
structure Request where
  cwd : Path
  document : Path
  sourceRoot : Option Path
  selectors : List FragmentPath
  mode : Mode

/-- One path-sorted observable command result. -/
inductive ReportEntry
  | state (path : FragmentPath) (state : State)
  | action (path : FragmentPath) (action : Action)
deriving DecidableEq

/-- The fragment a line is about. -/
def ReportEntry.path : ReportEntry → FragmentPath
  | .state path _ | .action path _ => path

/-- Whether selected fragments need further attention after normal completion. -/
inductive ExitState
  | synchronized
  | attention
deriving DecidableEq, Repr

/-- The exit code of a run that returned. -/
def ExitState.code : ExitState → Nat
  | .synchronized => 0
  | .attention => 1

/-- A normally completed command result. -/
structure Report where
  entries : List ReportEntry
  exit : ExitState
deriving DecidableEq

/-- A coordinated-access failure together with external writes already completed. -/
structure CoordinationError where
  completed : List FragmentPath
  failure : CoordinatedAccessFailure
deriving DecidableEq

/-- A validation, materialization, or operational failure. -/
inductive Error
  | invalidDocumentExtension (path : Path)
  | inventory (source : InventoryError)
  | selector (source : SelectorError)
  | forceRequiresExplicitSelection
  | invalidForcedState (path : FragmentPath) (state : State)
  | inconsistentMaterializationNode (nodeIndex : Nat)
  | inconsistentMaterializationMarkers (nodeIndex : Nat) (source : ParseError)
  | fragmentRewrite (nodeIndex : Nat) (source : RewriteError)
  | invalidPreparedMarkers (nodeIndex : Nat) (source : ParseError)
  | duplicatePreparedFragment (path : FragmentPath)
  | document (source : Adls.Error)
  | commit (source : CommitError)
  | coordination (source : CoordinationError)
  /-- A panic, with its message. -/
  | panic (message : String)
deriving DecidableEq

/-- A refused access together with the external writes already completed. -/
structure EngineAccessFailure (ε : Type) where
  source : ε
  completed : List FragmentPath

namespace EngineAccessFailure

/-- A refused access during the discovery, before anything was written. -/
def discovery {ε : Type} (source : ε) : EngineAccessFailure ε := ⟨source, []⟩

/-- A refused access during the commit, with the writes completed before it. -/
def commit {ε : Type} (failure : CommitAccessFailure ε) : EngineAccessFailure ε :=
  ⟨failure.source, failure.completed⟩

end EngineAccessFailure

/-- External fragment paths fully written before an operational failure. -/
def Error.committedExternal : Error → List FragmentPath
  | .commit error => error.completed
  | .coordination error => error.completed
  | _ => []

/-! ## Paths -/

/-- The paths a request means, from the directory it was given in. -/
structure ResolvedPaths where
  document : Path
  sourceRoot : Path

/-- A relative path is taken from the working directory. -/
def resolveFrom (cwd path : Path) : Path := if path.absolute then path else cwd.join path

/-- The paths of a request. The document has to be one by its extension, and without a source root
it is the directory of the document. -/
def resolvePaths (cwd document : Path) (sourceRoot : Option Path) : Except Error ResolvedPaths := do
  require (document.extension = some ['a', 'u', 'd', 'u', 'l', 'u', 's', '4'])
    (.invalidDocumentExtension document)
  let document := resolveFrom cwd document
  match sourceRoot with
  | some sourceRoot => pure ⟨document, resolveFrom cwd sourceRoot⟩
  | none => do
    let parent ← okOr document.parent (.panic "a cwd-resolved document path has a parent")
    pure ⟨document, parent⟩

/-! ## Reports -/

/-- The exit state of a run, by whether something is left to attend to. -/
def exitState (attention : Bool) : ExitState := if attention then .attention else .synchronized

/-- The report of the status: the state of every selected fragment. The exit state asks for
attention unless all of them are synchronized. -/
def statusReport (classified : List (InventoryEntry × Classification)) : Report where
  entries := classified.map fun c => .state c.1.path c.2.state
  exit := exitState (classified.any fun c => c.2.state ≠ .synchronized)

/-- The error of a plan, with the fragment it is about in place of its index. The panics are those
of the source, and do not come up. -/
def mapPlanError (error : PlanError) (classified : List (InventoryEntry × Classification)) :
    Error :=
  match error with
  | .forceRequiresExplicitSelection => .forceRequiresExplicitSelection
  | .invalidForcedState index state =>
    match classified[index]? with
    | some c => .invalidForcedState c.1.path state
    | none => .panic "index out of bounds"
  | .unreachable => .panic "forced operations are planned as a validated batch"

/-! ## Preparation -/

/-- What the decisions of a batch amount to. -/
structure Prepared where
  nodeUpdates : OrdMap Nat (List FragmentUpdate)
  extracted : List InventoryEntry
  reportEntries : List ReportEntry
  attention : Bool

/-- The update of the document that an action needs. -/
def actionUpdate (entry : InventoryEntry) : Action → Except Error FragmentUpdate
  | .record | .extract => pure (.record entry.path)
  | .embed => do
    let source ← okOr entry.filesystem (.panic "an embed action has filesystem source")
    pure (.replace entry.path source)

/-- Enters one decision: what is to be updated, extracted and reported. A settled fragment leaves no
trace, and an unresolved one asks for attention. In the source it is the body of a loop of
`mutate_with_access`. -/
def prepareOne (prepared : Prepared) (d : InventoryEntry × Decision) : Except Error Prepared :=
  match d.2 with
  | .settled => pure prepared
  | .unresolved state => pure { prepared with
      attention := true
      reportEntries := prepared.reportEntries ++ [.state d.1.path state] }
  | .act action => do
    let update ← actionUpdate d.1 action
    pure { prepared with
      nodeUpdates := prepared.nodeUpdates.alter d.1.nodeIndex fun updates =>
        updates.getD [] ++ [update]
      extracted := if action = .extract then prepared.extracted ++ [d.1] else prepared.extracted
      reportEntries := prepared.reportEntries ++ [.action d.1.path action] }

/-- Enters all decisions in their order. -/
def prepare (decisions : List (InventoryEntry × Decision)) : Except Error Prepared :=
  decisions.foldlM prepareOne ⟨.empty, [], [], false⟩

/-- The node of a document with an index. -/
def findNode (document : Adls.Document) (nodeIndex : Nat) : Option Adls.SourceNode :=
  match binarySearchBy (fun node : Adls.SourceNode => compare node.handle.index nodeIndex)
      document.sources with
  | .ok index => document.sources[index]?
  | .error _ => none

/-- Enters the paths of a node that are not entered yet. -/
def enterPath (paths : OrdMap FragmentPath Unit) (fragment : FragmentView) :
    Except Error (OrdMap FragmentPath Unit) := do
  require ((paths.find? fragment.path).isNone) (.duplicatePreparedFragment fragment.path)
  pure (paths.insert fragment.path ())

/-- Enters the paths of the fragments of a node. -/
def enterNode (paths : OrdMap FragmentPath Unit) (node : Adls.SourceNode) :
    Except Error (OrdMap FragmentPath Unit) := do
  let parsed ← mapError (.invalidPreparedMarkers node.handle.index)
    (ParsedSource.parse node.kind node.source)
  parsed.view.foldlM enterPath paths

/-- The prepared document parses, and no path occurs twice in it. -/
def validatePreparedDocument (bytes : Bytes) : Except Error Unit := do
  let document ← mapError .document (Adls.Document.parse 4 bytes)
  let _ ← document.sources.foldlM enterNode .empty

section
variable [Sha256]

/-- Rewrites one node, and keeps the text if it is a new one. The node is parsed again, and its
markers were accepted before. -/
def rewriteNode (document : Adls.Document) (rewritten : List (Adls.NodeHandle × Str))
    (node : Nat × List FragmentUpdate) : Except Error (List (Adls.NodeHandle × Str)) := do
  let source ← okOr (findNode document node.1) (.inconsistentMaterializationNode node.1)
  let parsed ← mapError (.inconsistentMaterializationMarkers node.1)
    (ParsedSource.parse source.kind source.source)
  match ← mapError (.fragmentRewrite node.1) (parsed.rewrite node.2) with
  | .owned text => pure (rewritten ++ [(source.handle, text)])
  | .borrowed _ => pure rewritten

/-- The new document, if the updates change it. The new document is validated before it is given
out. -/
def materializeDocument (documentBytes : Bytes) (nodeUpdates : OrdMap Nat (List FragmentUpdate)) :
    Except Error (Option Bytes) := do
  let document ← mapError .document (Adls.Document.parse 2 documentBytes)
  let rewritten ← nodeUpdates.entries.foldlM (rewriteNode document) []
  match ← mapError .document (document.rewrite 3 rewritten) with
  | .borrowed _ => pure none
  | .owned bytes => do
    validatePreparedDocument bytes
    pure (some bytes)

/-! ## Execution -/

/-- The output that extracts an entry. -/
def externalOutput (entry : InventoryEntry) : ExternalOutput where
  path := entry.path
  bytes := encode entry.embedded.value
  write := if entry.filesystem.isNone then .createNew else .createOrTruncate

/-- The paths whose targets are absent. -/
def absentTargets (entries : List InventoryEntry) : List FragmentPath :=
  (entries.filter fun entry => entry.filesystem.isNone).map InventoryEntry.path

/-- The selected entries with their classifications. -/
def classifyEntries (selected : List InventoryEntry) : List (InventoryEntry × Classification) :=
  selected.map fun entry => (entry, classify entry.embedded entry.baseline entry.filesystem)

/-- Everything a mutating command computes before it commits: what was decided, and the new
document. -/
def prepareOutputs (documentBytes : Bytes) (classified : List (InventoryEntry × Classification))
    (selection : SelectionKind) (operation : Operation) :
    Except Error (Prepared × Option Bytes) := do
  let decisions ← mapError (mapPlanError · classified)
    (plan operation selection (classified.map (·.2)))
  let prepared ← prepare ((classified.map (·.1)).zip decisions)
  let documentOutput ← materializeDocument documentBytes prepared.nodeUpdates
  pure (prepared, documentOutput)

variable {σ δ φ ε : Type} (fs : FileSystem σ δ φ)
  (commitFilesystem : SourceRoot δ → CommitFilesystem σ) (access : AccessPolicy σ ε)

/-- The part of a mutating command behind the discovery: everything is prepared, and if something
changes it is committed. The report is ready before the first write. -/
def mutateWithAccess (documentPath : Path) (inventory : Inventory δ)
    (classified : List (InventoryEntry × Classification)) (selection : SelectionKind)
    (op : Operation) : Run σ (PolicyFailure (EngineAccessFailure ε) Error) Report := do
  let (prepared, documentOutput) ←
    operation (prepareOutputs inventory.documentBytes classified selection op)
  let report : Report := ⟨prepared.reportEntries, exitState prepared.attention⟩
  if prepared.extracted.isEmpty ∧ documentOutput.isNone then pure report
  else do
    (commitUsing access (commitFilesystem inventory.sourceRoot)
      (prepared.extracted.map externalOutput) (absentTargets inventory.entries)
      (documentOutput.map fun bytes => ⟨documentPath, bytes⟩)).mapError
        fun failure => (failure.mapAccess .commit).mapOperation .commit
    pure report

/-- A request without selectors is about all fragments. -/
def selectionKind (selectors : List FragmentPath) : SelectionKind :=
  if selectors.isEmpty then .all else .explicit

/-- Executes one complete request over any implementation of the commit's effects. Discovery and the
selection come first, and status ends there. -/
def executeUsing (request : Request) :
    Run σ (PolicyFailure (EngineAccessFailure ε) Error) Report := do
  let paths ← operation (resolvePaths request.cwd request.document request.sourceRoot)
  let inventory ← (Inventory.discoverForDocument fs paths.sourceRoot paths.document access).mapError
    fun failure => (failure.mapAccess .discovery).mapOperation .inventory
  let selected ← operation (mapError .selector (inventory.select request.selectors))
  let classified := classifyEntries selected
  match request.mode with
  | .status => pure (statusReport classified)
  | .mutate op =>
    mutateWithAccess commitFilesystem access paths.document inventory classified
      (selectionKind request.selectors) op

/-- Executes one complete request under an access policy. -/
def executeWithAccess (request : Request) :
    Run σ (PolicyFailure (EngineAccessFailure ε) Error) Report :=
  executeUsing fs (realFilesystem fs) access request

/-- The failure of a run under the coordinated policy. In the source it is `coordinated_result`. -/
def coordinatedError :
    PolicyFailure (EngineAccessFailure CoordinatedAccessFailure) Error → Error
  | .operation error => error
  | .access failure => .coordination ⟨failure.completed, failure.source⟩

/-- Executes one complete request, with coordinated accesses. -/
def execute (coordinated : AccessPolicy σ CoordinatedAccessFailure) (request : Request) :
    Run σ Error Report :=
  (executeWithAccess fs coordinated request).mapError coordinatedError

end

end Zwirn.Sync
