import Zwirn.Sync.Entries

/-!
# Discovery over a snapshot

A `Snapshot` says what stands at every path, and `snapshotFilesystem` answers from it. What
discovery makes of a document and a snapshot is `Represents`: the fragments of the document in path
order, each with the canonical form of its file, and with no file that belongs to two of them or is
the document (`discoverForDocument_represents`).
-/

namespace Zwirn.Sync

open Lib Fragment Adls

/-! ## Snapshots -/

/-- What stands at a path. -/
inductive Object
  | regular (identity : FileIdentity) (bytes : Bytes)
  | directory (identity : FileIdentity)
  | special (identity : FileIdentity)
deriving DecidableEq

/-- What the metadata of a thing at a path is. -/
def Object.metadata : Object → Metadata
  | .regular identity _ => ⟨.file, identity⟩
  | .directory identity => ⟨.directory, identity⟩
  | .special identity => ⟨.other, identity⟩

/-- A snapshot of the filesystem: at each path there is a thing or nothing. -/
abbrev Snapshot := Path → Option Object

/-- Looks up a path, and fails where nothing is. -/
def Snapshot.lookup (snap : Snapshot) (path : Path) : Except IoError Object :=
  okOr (snap path) ⟨.notFound, "no such file or directory"⟩

/-- A filesystem that answers from a snapshot and refuses every change. A directory handle is the
path of the directory, and a file handle is what was opened. -/
def snapshotFilesystem (snap : Snapshot) : FileSystem Unit Path Object where
  openAmbientDir path := .ofExcept do
    let object ← snap.lookup path
    require (object.metadata.fileType = .directory) ⟨.notADirectory, "not a directory"⟩
    pure path
  dirMetadata dir path := .ofExcept (Object.metadata <$> snap.lookup (dir.join path))
  dirOpen dir path := .ofExcept (snap.lookup (dir.join path))
  dirOpenWith _ _ _ := .fail ⟨.other, "read-only filesystem"⟩
  dirCreateDirAll _ _ := .fail ⟨.other, "read-only filesystem"⟩
  fileOpen path := .ofExcept (snap.lookup path)
  fileMetadata object := pure object.metadata
  readToEnd object :=
    match object with
    | .regular _ bytes => pure bytes
    | .directory _ | .special _ => .fail ⟨.other, "not a regular file"⟩
  writeAll _ _ := .fail ⟨.other, "read-only filesystem"⟩
  write _ _ := .fail ⟨.other, "read-only filesystem"⟩

/-- A lookup finds what the snapshot says. -/
theorem Snapshot.lookup_eq_ok {snap : Snapshot} {path : Path} {object : Object} :
    snap.lookup path = .ok object ↔ snap path = some object := okOr_eq_ok

/-- It succeeds where something is, -/
theorem Snapshot.lookup_of_some {snap : Snapshot} {path : Path} {object : Object}
    (h : snap path = some object) : snap.lookup path = .ok object := Snapshot.lookup_eq_ok.2 h

/-- and where nothing is it fails as the code expects of a missing file. -/
theorem Snapshot.lookup_of_none {snap : Snapshot} {path : Path} (h : snap path = none) :
    snap.lookup path = .error ⟨.notFound, "no such file or directory"⟩ := by
  rw [Snapshot.lookup, h]
  rfl

/-! ## What a target holds -/

/-- The filesystem input of an entry, and the identity of the file it was read from. -/
inductive HoldsSource : Option Object → Option CanonicalSource → Option FileIdentity → Prop
  | absent : HoldsSource none none none
  | present {identity : FileIdentity} {bytes : Bytes} {text : Str} {source : CanonicalSource} :
      decode bytes = some text → CanonicalSource.tryFrom text = .ok source →
      HoldsSource (some (.regular identity bytes)) (some source) (some identity)

/-- The identities of the files that exist at the targets of entries. -/
def existingIdentities (snap : Snapshot) (entries : List InventoryEntry) : List FileIdentity :=
  entries.filterMap fun entry => (snap entry.target).map (·.metadata.identity)

/-- The identity is that of the thing at the target, if there is one. -/
theorem HoldsSource.identity_eq {object : Option Object} {filesystem : Option CanonicalSource}
    {identity : Option FileIdentity} (h : HoldsSource object filesystem identity) :
    object.map (·.metadata.identity) = identity := by
  cases h with
  | absent => rfl
  | present _ _ => rfl

section
variable {ε : Type} {snap : Snapshot} {root : SourceRoot Path} {origin : Option DocumentOrigin}

/-- A target read from a snapshot. The cases are what the snapshot has at the target. Only a regular
file, or nothing, lets the reading succeed. -/
theorem readOptionalTarget_snapshot {path : FragmentPath} {target : Path} {s t : Unit}
    {input : Option ExistingInput}
    (h : readOptionalTarget (snapshotFilesystem snap) root path target s = (.ok input, t)) :
    snap (root.directory.join (relativePath path)) =
      input.map fun input => .regular input.identity input.bytes := by
  cases hsnap : snap (root.directory.join (relativePath path)) with
  | none =>
    have hread : readOptionalTarget (snapshotFilesystem snap) root path target s =
        (.ok none, s) := by
      simp [readOptionalTarget, SourceRoot.metadata, snapshotFilesystem, Run.bind_apply,
        Snapshot.lookup_of_none hsnap]
    rw [hread] at h
    cases h
    rfl
  | some object =>
    have hlookup := Snapshot.lookup_of_some hsnap
    cases object with
    | regular identity bytes =>
      have hread : readOptionalTarget (snapshotFilesystem snap) root path target s =
          (.ok (some ⟨bytes, identity⟩), s) := by
        simp [readOptionalTarget, readTarget, SourceRoot.metadata, SourceRoot.openTarget,
          snapshotFilesystem, Run.bind_apply, hlookup, Object.metadata, mapError]
      rw [hread] at h
      cases h
      rfl
    | directory identity | special identity =>
      have hread : readOptionalTarget (snapshotFilesystem snap) root path target s =
          (.error (.targetNotRegular path target), s) := by
        simp [readOptionalTarget, SourceRoot.metadata, snapshotFilesystem, Run.bind_apply, hlookup,
          Object.metadata]
      rw [hread] at h
      cases h

/-- One round of the loop over a snapshot. The identity of a file is new, since it was compared with
those of the files before. -/
theorem discoverEntry_snapshot {access : AccessPolicy Unit ε} (hroot : root.directory = root.path)
    {identities identities' : OrdMap FileIdentity FragmentPath} {d : DiscoveredFragment}
    {entry : InventoryEntry} {s t : Unit}
    (h : discoverEntry (snapshotFilesystem snap) access root origin identities d s =
      (.ok (entry, identities'), t)) :
    ∃ identity, HoldsSource (snap entry.target) entry.filesystem identity ∧
      (∀ i ∈ identity, i ∉ identities.keys ∧ ∀ o ∈ origin, o.identity ≠ i) ∧
      ∀ i, i ∈ identities'.keys ↔ i ∈ identity ∨ i ∈ identities.keys := by
  unfold discoverEntry at h
  obtain ⟨_, _, _, h⟩ := Run.bind_eq_ok.1 h
  obtain ⟨_, _, _, h⟩ := Run.bind_eq_ok.1 h
  obtain ⟨input, _, hinput, h⟩ := Run.bind_eq_ok.1 h
  obtain ⟨_, -, hread⟩ := flatten_around_eq_ok.1 hinput
  have hsnap := readOptionalTarget_snapshot hread
  rw [hroot] at hsnap
  cases input with
  | none =>
    cases h
    refine ⟨none, ?_, by simp, by simp⟩
    rw [show snap (root.namedPath (relativePath d.path)) = none from hsnap]
    exact .absent
  | some input =>
    obtain ⟨source, _, haccept, h⟩ := Run.bind_eq_ok.1 h
    cases h
    obtain ⟨haccept, -⟩ := operation_eq_ok.1 haccept
    obtain ⟨hother, hnew, text, htext, hsource⟩ := acceptInput_eq_ok.1 haccept
    refine ⟨some input.identity, ?_, fun i hi => ?_, fun i => ?_⟩
    · rw [show snap (root.namedPath (relativePath d.path)) = _ from hsnap]
      exact .present htext hsource
    · obtain rfl := Option.some.inj hi
      exact ⟨hnew, hother⟩
    · rw [OrdMap.mem_keys_insert, Option.mem_some, eq_comm]

/-- The loop over a snapshot reads every target, and no file twice. The induction is on the
fragments, with the identities that were read before. -/
theorem discoverEntries_snapshot {access : AccessPolicy Unit ε} (hroot : root.directory = root.path)
    {identities : OrdMap FileIdentity FragmentPath} {ds : List DiscoveredFragment}
    {entries : List InventoryEntry} {s t : Unit}
    (h : discoverEntries (snapshotFilesystem snap) access root origin identities ds s =
      (.ok entries, t)) :
    (∀ entry ∈ entries, ∃ identity, HoldsSource (snap entry.target) entry.filesystem identity) ∧
      (existingIdentities snap entries).Nodup ∧
      ∀ i ∈ existingIdentities snap entries, i ∉ identities.keys ∧ ∀ o ∈ origin, o.identity ≠ i := by
  induction ds generalizing identities s entries with
  | nil =>
    cases h
    simp [existingIdentities]
  | cons d ds ih =>
    obtain ⟨⟨entry, identities'⟩, t', hentry, h⟩ := Run.bind_eq_ok.1 h
    obtain ⟨entries, t'', hentries, h⟩ := Run.bind_eq_ok.1 h
    cases h
    obtain ⟨identity, hholds, hnew, hkeys⟩ := discoverEntry_snapshot hroot hentry
    obtain ⟨hall, hnodup, hothers⟩ := ih hentries
    have hcons : existingIdentities snap (entry :: entries) =
        identity.toList ++ existingIdentities snap entries := by
      rw [existingIdentities, List.filterMap_cons, hholds.identity_eq]
      cases identity <;> rfl
    refine ⟨List.forall_mem_cons.2 ⟨⟨identity, hholds⟩, hall⟩, ?_, fun i hi => ?_⟩
    · rw [hcons, List.nodup_append]
      refine ⟨by cases identity <;> simp, hnodup, fun i hi j hj heq => ?_⟩
      subst heq
      exact (hothers i hj).1 ((hkeys i).2 (.inl (Option.mem_toList.1 hi)))
    · rw [hcons, List.mem_append, Option.mem_toList] at hi
      rcases hi with hi | hi
      · exact hnew i hi
      · exact ⟨fun hmem => (hothers i hi).1 ((hkeys i).2 (.inr hmem)), (hothers i hi).2⟩

end

/-! ## The inventory -/

/-- The fragments of the nodes, each with the index of its node. -/
def nodeFragments (nodes : List SourceNode) (ps : List ParsedSource) : List (Nat × FragmentView) :=
  (nodes.zip ps).flatMap fun n => n.2.view.map fun f => (n.1.handle.index, f)

/-- The entry of a fragment found in a node. -/
structure IsFragmentEntry (found : Nat × FragmentView) (entry : InventoryEntry) : Prop where
  nodeIndex : entry.nodeIndex = found.1
  path : entry.path = found.2.path
  baseline : entry.baseline = found.2.baseline
  embedded : entry.embedded.value = canonicalizeSource found.2.source

/-- What an inventory is of its document and the snapshot. The entries are those of the document in
path order, their files are those of the snapshot, and no two of these are the same. -/
structure Represents (snap : Snapshot) (sourceRoot documentPath : Path)
    (inventory : Inventory Path) : Prop where
  sorted : (inventory.entries.map InventoryEntry.path).Pairwise (· < ·)
  fragments : ∃ document ps found, Document.parse 1 inventory.documentBytes = .ok document ∧
    List.Forall₂ Parses document.sources ps ∧
    found.Perm (nodeFragments document.sources ps) ∧
    List.Forall₂ IsFragmentEntry found inventory.entries
  target : ∀ entry ∈ inventory.entries, entry.target = sourceRoot.join (relativePath entry.path)
  filesystem : ∀ entry ∈ inventory.entries,
    (snap entry.target = none ∧ entry.filesystem = none) ∨
    ∃ identity bytes text source, snap entry.target = some (.regular identity bytes) ∧
      decode bytes = some text ∧ entry.filesystem = some source ∧
      source.value = canonicalizeSource text
  identities : ∃ identity, snap documentPath = some (.regular identity inventory.documentBytes) ∧
    (identity :: existingIdentities snap inventory.entries).Nodup

/-- What a selection from an inventory is. It is accepted if every selector is the path of an entry,
and gives what was selected in path order. -/
structure SelectsExactly {δ : Type} (inventory : Inventory δ) (selectors : List FragmentPath) :
    Prop where
  accepted : (∃ selected, inventory.select selectors = .ok selected) ↔
    ∀ selector ∈ selectors, ∃ entry ∈ inventory.entries, entry.path = selector
  selected : ∀ selected, inventory.select selectors = .ok selected →
    (selected.map InventoryEntry.path).Pairwise (· < ·) ∧
    ∀ entry, entry ∈ selected ↔
      entry ∈ inventory.entries ∧ (selectors = [] ∨ entry.path ∈ selectors)

/-- A selection gives exactly the entries with the selected paths, in path order and each of them
once. The binary search finds each, since the entries are in strict path order. -/
theorem selectsExactly {δ : Type} {inventory : Inventory δ} (h : InPathOrder inventory.entries)
    (selectors : List FragmentPath) : SelectsExactly inventory selectors := by
  constructor
  case accepted =>
    simp only [Inventory.select_eq_ok h, List.mem_map, exists_and_left, exists_eq, and_true]
  case selected =>
    intro selected hselected
    obtain ⟨-, rfl⟩ := (Inventory.select_eq_ok h).1 hselected
    exact ⟨h.sublist ((chosen_sublist _ _).map _), fun entry => mem_chosen⟩

/-- The fragments of the nodes, as they are discovered node by node. The induction is on the
nodes. -/
theorem exists_nodeFragments {nodes : List SourceNode} {found : List (List DiscoveredFragment)}
    (h : List.Forall₂ NodeDiscovered nodes found) :
    ∃ ps, List.Forall₂ Parses nodes ps ∧
      List.Forall₂ (fun f d => IsDiscovered f.1 f.2 d) (nodeFragments nodes ps) found.flatten := by
  induction h with
  | nil => exact ⟨[], .nil, .nil⟩
  | @cons n ds nodes found hn _ ih =>
    obtain ⟨p, hp, hds⟩ := hn
    obtain ⟨ps, hps, hfound⟩ := ih
    refine ⟨p :: ps, .cons hp hps, ?_⟩
    refine List.rel_append ?_ hfound
    rwa [List.forall₂_map_left_iff]

/-- The discovered fragments, nodes and entries belong together: the entries are the fragments of
the nodes in another order, each with the canonical form of its source. -/
theorem Discovers.fragments {δ : Type} {bytes : Bytes} {root : SourceRoot δ}
    {ds : List DiscoveredFragment} {inventory : Inventory δ}
    (h : Discovers bytes root ds inventory) :
    ∃ document ps found, Document.parse 1 bytes = .ok document ∧
      List.Forall₂ Parses document.sources ps ∧
      found.Perm (nodeFragments document.sources ps) ∧
      List.Forall₂ IsFragmentEntry found inventory.entries := by
  obtain ⟨document, hdocument, hds⟩ := h.document
  obtain ⟨found, hfound, rfl⟩ := hds.found
  obtain ⟨ps, hps, hflat⟩ := exists_nodeFragments hfound
  obtain ⟨fragments, hfragments, hperm⟩ := List.perm_comp_forall₂
    (List.perm_insertionSort (fun left right : DiscoveredFragment => left.path ≤ right.path)
      found.flatten) hflat.flip
  refine ⟨document, ps, fragments, hdocument, hps, hperm, ?_⟩
  refine forall₂_trans (fun f d entry hd hentry => ?_) hfragments.flip h.entries
  refine ⟨hentry.nodeIndex.trans hd.nodeIndex, hentry.path.trans hd.path,
    hentry.baseline.trans hd.baseline, ?_⟩
  rw [hentry.embedded]
  exact (CanonicalSource.tryFrom_eq_ok.1 hd.embedded).2

section
variable {ε : Type} {snap : Snapshot} {sourceRoot documentPath : Path}
  {access : AccessPolicy Unit ε} {inventory : Inventory Path} {s t : Unit}

/-- A document read from a snapshot. It is a regular file, since nothing else can be read. -/
theorem readDocument_snapshot {path : Path} {input : ExistingInput}
    (h : readDocument (snapshotFilesystem snap) path s = (.ok input, t)) :
    snap path = some (.regular input.identity input.bytes) := by
  unfold readDocument at h
  simp only [Run.bind_eq_ok, Run.mapError_apply, Prod.mk.injEq, mapError_eq_ok] at h
  obtain ⟨object, _, ⟨hobject, -⟩, metadata, _, ⟨hmetadata, -⟩, bytes, _, ⟨hbytes, -⟩, h⟩ := h
  cases hmetadata
  cases h
  rw [Snapshot.lookup_eq_ok.1 hobject]
  cases object with
  | regular identity bytes =>
    cases hbytes
    rfl
  | directory identity | special identity => cases hbytes

/-- On a snapshot the handle of the source root is its path. -/
theorem openSourceRoot_snapshot {root : SourceRoot Path}
    (h : Inventory.openSourceRoot (snapshotFilesystem snap) sourceRoot s = (.ok root, t)) :
    root = ⟨sourceRoot, sourceRoot⟩ := by
  rw [Inventory.openSourceRoot, Run.mapError_apply, Prod.mk.injEq, mapError_eq_ok] at h
  obtain ⟨directory, _, hdirectory, hroot⟩ := Run.bind_eq_ok.1 (Prod.ext h.1 h.2)
  cases hroot
  simp only [snapshotFilesystem, Run.ofExcept_apply, Prod.mk.injEq, Except.bind_eq_ok,
    Except.pure_eq_ok] at hdirectory
  obtain ⟨⟨_, _, _, _, rfl⟩, -⟩ := hdirectory
  rfl

/-- Discovery over a snapshot makes the inventory of the document and the snapshot, and selections
from it are exact. It has the fragments of the document in path order, each with the canonical form
of its file, and no file belongs to two of them or is the document. -/
theorem discoverForDocument_represents
    (h : (Inventory.discoverForDocument (snapshotFilesystem snap) sourceRoot documentPath access
      s).1 = .ok inventory) :
    Represents snap sourceRoot documentPath inventory ∧
      ∀ selectors, SelectsExactly inventory selectors := by
  have hrun : Inventory.discoverForDocument (snapshotFilesystem snap) sourceRoot documentPath access
      s = (.ok inventory, ()) := Prod.ext h rfl
  unfold Inventory.discoverForDocument at hrun
  obtain ⟨root, _, hroot, hrun⟩ := Run.bind_eq_ok.1 hrun
  obtain ⟨input, _, hinput, hrun⟩ := Run.bind_eq_ok.1 hrun
  rw [Run.mapError_apply, Prod.mk.injEq, mapError_eq_ok] at hroot
  obtain rfl := openSourceRoot_snapshot (Prod.ext hroot.1 hroot.2)
  obtain ⟨_, -, hread⟩ := flatten_around_eq_ok.1 hinput
  obtain ⟨ds, hds⟩ := exists_discovers hrun
  obtain ⟨document, ds', hdocument, hds', -, hbytes, hentries⟩ := discoverInner_eq_ok.1 hrun
  obtain ⟨hholds, hnodup, hothers⟩ := discoverEntries_snapshot rfl hentries
  refine ⟨?_, selectsExactly hds.sorted⟩
  constructor
  case sorted => exact hds.sorted
  case fragments => exact hbytes ▸ hds.fragments
  case target =>
    intro entry hentry
    obtain ⟨d, -, hd⟩ := exists_left_of_forall₂ hds.entries hentry
    rw [hd.target, hd.path]
    rfl
  case filesystem =>
    intro entry hentry
    obtain ⟨identity, hholds⟩ := hholds entry hentry
    generalize snap entry.target = object at hholds
    generalize entry.filesystem = filesystem at hholds
    cases hholds with
    | absent => exact .inl ⟨rfl, rfl⟩
    | present htext hsource =>
      exact .inr ⟨_, _, _, _, rfl, htext, rfl, (CanonicalSource.tryFrom_eq_ok.1 hsource).2⟩
  case identities =>
    refine ⟨input.identity, ?_, ?_⟩
    · rw [hbytes]
      exact readDocument_snapshot hread
    · exact List.nodup_cons.2 ⟨fun hmem => (hothers _ hmem).2 _ rfl rfl, hnodup⟩

end

/-- A directory with a document and the file of its fragment. -/
def sampleSnapshot : Snapshot := fun path =>
  if path = ⟨true, [['w']]⟩ then some (.directory ⟨0, 1⟩)
  else if path = ⟨true, [['w'], ['d']]⟩ then some (.regular ⟨0, 2⟩ fragmentBuffer)
  else if path = ⟨true, [['w'], ['p']]⟩ then some (.regular ⟨0, 3⟩ (encode ['\n']))
  else none

/-- The inventory of the sample: one fragment, whose file holds a source. -/
def sampleInventory : Inventory Path where
  sourceRoot := ⟨⟨true, [['w']]⟩, ⟨true, [['w']]⟩⟩
  documentBytes := fragmentBuffer
  entries := [⟨1, samplePath, (emptyFragment samplePath).embedded, none,
    ⟨true, [['w'], ['p']]⟩, some lfSource⟩]

set_option maxRecDepth 4000 in
/-- It is what the discovery of the document's bytes gives. -/
theorem sampleInventory_discoveredInner :
    Inventory.discoverInner (snapshotFilesystem sampleSnapshot) fragmentBuffer
      sampleInventory.sourceRoot (some ⟨⟨true, [['w'], ['d']]⟩, ⟨0, 2⟩⟩) AccessPolicy.direct () =
        (.ok sampleInventory, ()) := rfl

/-- A fragment without text. -/
def bareLines (path : Char) : Str :=
  ['-', '-', ' ', '@', '{', ' ', path, '\n', '-', '-', ' ', '@', '}', ' ', path, '\n']

/-- A document with two nodes: the first one has the fragments `r` and `p`, the second one `q`. -/
def threeBuffer : Bytes :=
  sharedBuffer.take 84 ++ [16, 0, 0, 0] ++ slice sharedBuffer 88 8 ++ [44, 0, 0, 0] ++
    [32, 0, 0, 0] ++ encode (bareLines 'r' ++ bareLines 'p') ++ List.replicate 4 0 ++
    [16, 0, 0, 0] ++ encode (bareLines 'q') ++ [0]

/-- A directory with the document and the files of two of its fragments. -/
def threeSnapshot : Snapshot := fun path =>
  if path = ⟨true, [['w']]⟩ then some (.directory ⟨0, 1⟩)
  else if path = ⟨true, [['w'], ['d']]⟩ then some (.regular ⟨0, 2⟩ threeBuffer)
  else if path = ⟨true, [['w'], ['p']]⟩ then some (.regular ⟨0, 3⟩ (encode ['\n']))
  else if path = ⟨true, [['w'], ['r']]⟩ then some (.regular ⟨0, 4⟩ [])
  else none

/-- The fragments of two nodes, which the document has in another order. Two of them have a file. So
the order, the identities and a selection of several entries are all those of more than one
fragment. -/
theorem discoverForDocument_represents_sample : ∃ inventory : Inventory Path,
    inventory.entries.map (fun entry => (entry.nodeIndex, entry.path.value, entry.filesystem.isSome)) =
      [(1, ['p'], true), (2, ['q'], false), (1, ['r'], true)] ∧
    Represents threeSnapshot ⟨true, [['w']]⟩ ⟨true, [['w'], ['d']]⟩ inventory ∧
    ∀ selectors, SelectsExactly inventory selectors := by
  obtain ⟨inventory, hrun, hentries⟩ := @exists_of_any _ _ _ (Inventory.discoverForDocument
    (snapshotFilesystem threeSnapshot) ⟨true, [['w']]⟩ ⟨true, [['w'], ['d']]⟩ AccessPolicy.direct ())
    (fun inventory => inventory.entries.map
      (fun entry => (entry.nodeIndex, entry.path.value, entry.filesystem.isSome)) =
        [(1, ['p'], true), (2, ['q'], false), (1, ['r'], true)]) (by decide +kernel)
  exact ⟨inventory, of_decide_eq_true hentries,
    discoverForDocument_represents (congrArg Prod.fst hrun)⟩

end Zwirn.Sync
