import Zwirn.Adls.Parse
import Zwirn.Fragment.Parse
import Zwirn.Sync.Files

/-!
# Discovery

`Inventory.discoverInner` reads the fragments of a document and, for each of them in path order, its
target, once. `Inventory.select` picks a subset of the entries in path order. The code is in
`src/inventory.rs`.
-/

namespace Zwirn.Sync

open Lib Fragment

/-- One fragment and its validated filesystem input. -/
structure InventoryEntry where
  nodeIndex : Nat
  path : FragmentPath
  embedded : CanonicalSource
  baseline : Option BaselineHash
  target : Path
  filesystem : Option CanonicalSource
deriving DecidableEq

/-- A path-sorted, owned view of every fragment and filesystem input. -/
structure Inventory (δ : Type) where
  sourceRoot : SourceRoot δ
  documentBytes : Bytes
  entries : List InventoryEntry

/-- A fragment of the document, with the node it stands in and its canonical source. -/
structure DiscoveredFragment where
  nodeIndex : Nat
  path : FragmentPath
  embedded : CanonicalSource
  baseline : Option BaselineHash
deriving DecidableEq

/-- The document a discovery starts from, by its path and by its identity. No target may be it. -/
structure DocumentOrigin where
  path : Path
  identity : FileIdentity

/-- The bytes of a file that was read, with the identity of this file. -/
structure ExistingInput where
  bytes : Bytes
  identity : FileIdentity

/-- A discovery or filesystem-validation failure. -/
inductive InventoryError
  | documentInput (path : Path) (source : IoError)
  | sourceRoot (path : Path) (source : IoError)
  | invalidDocument (source : Adls.Error)
  | invalidMarkers (nodeIndex : Nat) (source : ParseError)
  | invalidEmbeddedSource (nodeIndex : Nat) (path : FragmentPath) (source : CanonicalSourceError)
  | duplicateFragment (path : FragmentPath) (firstNode secondNode : Nat)
  | pathPrefixConflict (ancestor descendant : FragmentPath)
  | documentTarget (path : FragmentPath) (target : Path)
  | aliasedTargets (firstPath secondPath : FragmentPath)
  | fragmentParent (path : FragmentPath) (parent : Path) (source : IoError)
  | targetAccess (path : FragmentPath) (target : Path) (source : IoError)
  | targetNotRegular (path : FragmentPath) (target : Path)
  | targetRead (path : FragmentPath) (target : Path) (source : IoError)
  | invalidTargetUtf8 (path : FragmentPath) (target : Path)
  | invalidTargetSource (path : FragmentPath) (target : Path) (source : CanonicalSourceError)
deriving DecidableEq

/-- A selector that does not match the discovered inventory. -/
inductive SelectorError
  | unknownPath (path : FragmentPath)
deriving DecidableEq

/-! ## Fragments of a document -/

/-- The fragment of a node with its source in canonical form, unless it begins with a byte-order
mark. -/
def discoverFragment (nodeIndex : Nat) (fragment : FragmentView) :
    Except InventoryError DiscoveredFragment := do
  let embedded ← mapError (.invalidEmbeddedSource nodeIndex fragment.path)
    (CanonicalSource.tryFrom fragment.source)
  pure ⟨nodeIndex, fragment.path, embedded, fragment.baseline⟩

/-- The fragments of one source node, from its markers. -/
def discoverNode (node : Adls.SourceNode) : Except InventoryError (List DiscoveredFragment) := do
  let parsed ← mapError (.invalidMarkers node.handle.index)
    (ParsedSource.parse node.kind node.source)
  parsed.view.mapM (discoverFragment node.handle.index)

/-- No path occurs twice. It is enough to compare neighbours, since the fragments are in path
order. -/
def validateUniqueness : List DiscoveredFragment → Except InventoryError Unit
  | left :: right :: rest => do
    require (left.path ≠ right.path)
      (.duplicateFragment left.path left.nodeIndex right.nodeIndex)
    validateUniqueness (right :: rest)
  | _ => pure ()

/-- The parts of a path in front of its separators, from the shortest on; `before` is what was
passed. -/
def ancestors (before : Str) : Str → List Str
  | [] => []
  | c :: rest =>
    if c = '/' then before :: ancestors (before ++ [c]) rest else ancestors (before ++ [c]) rest

/-- Fails when the fragment lies beneath another one. That one is found by a binary search, since
the fragments are in path order. -/
def validateAncestor (discovered : List DiscoveredFragment) (fragment : DiscoveredFragment)
    (ancestor : Str) : Except InventoryError Unit :=
  match binarySearchBy (fun candidate => cmp candidate.path.value ancestor) discovered with
  | .ok index =>
    match discovered[index]? with
    | some found => .error (.pathPrefixConflict found.path fragment.path)
    | none => pure ()
  | .error _ => pure ()

/-- No fragment lies beneath another one. For each fragment all directories above it are looked for
among the fragments, from the outermost on. -/
def validatePathPrefixes (discovered : List DiscoveredFragment) : Except InventoryError Unit :=
  forM discovered fun fragment =>
    forM (ancestors [] fragment.path.value) (validateAncestor discovered fragment)

/-- The fragments of a document in path order. They are sorted, and a path that comes twice or lies
beneath another one is refused. -/
def discoverFragments (document : Adls.Document) :
    Except InventoryError (List DiscoveredFragment) := do
  let found ← document.sources.mapM discoverNode
  let discovered := found.flatten.insertionSort fun left right => left.path ≤ right.path
  validateUniqueness discovered
  validatePathPrefixes discovered
  pure discovered

/-! ## Targets -/

section
variable {σ δ φ ε : Type} (fs : FileSystem σ δ φ)

/-- There is a directory at the path, or nothing. -/
def validateOptionalDirectory (root : SourceRoot δ) (path : Path) : Run σ IoError Unit := do
  match ← (root.metadata fs path).attempt with
  | .ok metadata =>
    if metadata.fileType = .directory then pure ()
    else .fail ⟨.notADirectory, "path is not a directory"⟩
  | .error error => if error.kind = .notFound then pure () else .fail error

/-- Checks the directories from `parent` on down. A directory that is missing is no failure, and
those below it are looked up all the same. -/
def validateParentsFrom (root : SourceRoot δ) (path : FragmentPath) :
    List Str → List Str → Run σ InventoryError Unit
  | _, [] => pure ()
  | parent, segment :: segments => do
    let parent := parent ++ [segment]
    (validateOptionalDirectory fs root ⟨false, parent⟩).mapError
      (.fragmentParent path (root.namedPath ⟨false, parent⟩))
    validateParentsFrom root path parent segments

/-- Checks the directories above a target, from the outermost on. A fragment without a directory
above it has none to check. -/
def validateParents (root : SourceRoot δ) (path : FragmentPath) : Run σ InventoryError Unit :=
  match (relativePath path).parent with
  | some segments => validateParentsFrom fs root path [] segments.components
  | none => pure ()

/-- Reads an opened target, if it is a regular file. The metadata are those of the opened file, not
of the probe. -/
def readTarget (path : FragmentPath) (target : Path) (file : φ) :
    Run σ InventoryError (Option ExistingInput) := do
  let metadata ← (fs.fileMetadata file).mapError (.targetAccess path target)
  if metadata.fileType ≠ .file then .fail (.targetNotRegular path target)
  else do
    let bytes ← (fs.readToEnd file).mapError (.targetRead path target)
    pure (some ⟨bytes, metadata.identity⟩)

/-- Reads the target of a fragment, if there is one. It may vanish between the probe and the
opening, and is absent then. -/
def readOptionalTarget (root : SourceRoot δ) (path : FragmentPath) (target : Path) :
    Run σ InventoryError (Option ExistingInput) := do
  match ← (root.metadata fs (relativePath path)).attempt with
  | .error source =>
    if source.kind = .notFound then pure none else .fail (.targetAccess path target source)
  | .ok metadata =>
    if metadata.fileType ≠ .file then .fail (.targetNotRegular path target)
    else do
      match ← (root.openTarget fs path).attempt with
      | .error source =>
        if source.kind = .notFound then pure none else .fail (.targetAccess path target source)
      | .ok file => readTarget fs path target file

/-- Reads the document, with its identity. -/
def readDocument (path : Path) : Run σ InventoryError ExistingInput := do
  let file ← (fs.fileOpen path).mapError (.documentInput path)
  let metadata ← (fs.fileMetadata file).mapError (.documentInput path)
  let bytes ← (fs.readToEnd file).mapError (.documentInput path)
  pure ⟨bytes, metadata.identity⟩

/-- The canonical source of an existing target that is neither the document nor another target. Its
identity is compared with that of the document and with those that were accepted before. -/
def acceptInput (origin : Option DocumentOrigin) (path : FragmentPath) (target : Path)
    (identities : OrdMap FileIdentity FragmentPath) (input : ExistingInput) :
    Except InventoryError CanonicalSource := do
  require (¬ origin.any fun document => document.identity = input.identity)
    (.documentTarget path target)
  match identities.find? input.identity with
  | some firstPath => .error (.aliasedTargets firstPath path)
  | none => do
    let text ← okOr (decode input.bytes) (.invalidTargetUtf8 path target)
    mapError (.invalidTargetSource path target) (CanonicalSource.tryFrom text)

/-- One round of the loop over the fragments: validates the target and reads it under an access. In
the source it is the body of a loop of `discover_inner`. -/
def discoverEntry (access : AccessPolicy σ ε) (root : SourceRoot δ) (origin : Option DocumentOrigin)
    (identities : OrdMap FileIdentity FragmentPath) (fragment : DiscoveredFragment) :
    Run σ (PolicyFailure ε InventoryError) (InventoryEntry × OrdMap FileIdentity FragmentPath) := do
  (validateParents fs root fragment.path).mapError .operation
  let target := root.namedPath (relativePath fragment.path)
  operation (require (¬ origin.any fun document => document.path = target)
    (.documentTarget fragment.path target))
  let entry filesystem : InventoryEntry :=
    ⟨fragment.nodeIndex, fragment.path, fragment.embedded, fragment.baseline, target, filesystem⟩
  match ← flatten (access.read target (readOptionalTarget fs root fragment.path target)) with
  | none => pure (entry none, identities)
  | some input => do
    let source ← operation (acceptInput origin fragment.path target identities input)
    pure (entry (some source), identities.insert input.identity fragment.path)

/-- The loop over the fragments in path order. The identities of the targets that were read are
carried along, so that a later target can be told from each of them. -/
def discoverEntries (access : AccessPolicy σ ε) (root : SourceRoot δ)
    (origin : Option DocumentOrigin) : OrdMap FileIdentity FragmentPath →
    List DiscoveredFragment → Run σ (PolicyFailure ε InventoryError) (List InventoryEntry)
  | _, [] => pure []
  | identities, fragment :: fragments => do
    let (entry, identities) ← discoverEntry fs access root origin identities fragment
    let entries ← discoverEntries access root origin identities fragments
    pure (entry :: entries)

namespace Inventory

/-- The inventory of a document's bytes: its fragments, and then what the targets hold. -/
def discoverInner (documentBytes : Bytes) (root : SourceRoot δ) (origin : Option DocumentOrigin)
    (access : AccessPolicy σ ε) : Run σ (PolicyFailure ε InventoryError) (Inventory δ) := do
  let document ← operation (mapError .invalidDocument (Adls.Document.parse 1 documentBytes))
  let discovered ← operation (discoverFragments document)
  let entries ← discoverEntries fs access root origin .empty discovered
  pure ⟨root, documentBytes, entries⟩

/-- Opens the source root. A failure is one of the inventory. -/
def openSourceRoot (path : Path) : Run σ InventoryError (SourceRoot δ) :=
  (SourceRoot.openPath fs path).mapError (.sourceRoot path)

/-- Discovers all fragments of a document and validates all corresponding targets. In the source it
is `discover_for_document_with_access`. -/
def discoverForDocument (sourceRoot documentPath : Path) (access : AccessPolicy σ ε) :
    Run σ (PolicyFailure ε InventoryError) (Inventory δ) := do
  let root ← (openSourceRoot fs sourceRoot).mapError .operation
  let document ← flatten (access.read documentPath (readDocument fs documentPath))
  discoverInner fs document.bytes root (some ⟨documentPath, document.identity⟩) access

end Inventory

end

/-! ## Selection -/

/-- The entry with a path. -/
def Inventory.find {δ : Type} (inventory : Inventory δ) (selector : FragmentPath) :
    Except SelectorError InventoryEntry :=
  match binarySearchBy (fun entry : InventoryEntry => cmp entry.path selector)
      inventory.entries with
  | .ok index => okOr inventory.entries[index]? (.unknownPath selector)
  | .error _ => .error (.unknownPath selector)

/-- Selects an exact, deduplicated subset in canonical path order. An empty selector list selects
the complete inventory. -/
def Inventory.select {δ : Type} (inventory : Inventory δ) (selectors : List FragmentPath) :
    Except SelectorError (List InventoryEntry) :=
  if selectors.isEmpty then pure inventory.entries
  else
    let selectors : OrdMap FragmentPath Unit :=
      selectors.foldl (fun set selector => set.insert selector ()) .empty
    selectors.keys.mapM inventory.find

end Zwirn.Sync
