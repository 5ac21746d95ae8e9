import Zwirn.Adls.Failures
import Zwirn.Sync.Prepare
import Zwirn.Sync.Snapshot

/-!
# Defensive failures

The engine has failures for what its own stages exclude: `Error.Defensive`. None of them is reached
from an inventory that was discovered and a selection that was accepted
(`mutateWithAccess_not_defensive`): the nodes that the plan addresses are in the document, in order
and once each (`Discovers.addressesNodes`), so neither preparing the outputs nor rewriting the
document can fail on them.
-/

namespace Zwirn.Sync

open Lib Fragment Adls

/-- The failures that other stages exclude. The source returns them, or panics, where the case
should not come up any more. -/
inductive Error.Defensive : Error → Prop
  | inconsistentNode (nodeIndex : Nat) : Defensive (.inconsistentMaterializationNode nodeIndex)
  | inconsistentMarkers (nodeIndex : Nat) (source : ParseError) :
      Defensive (.inconsistentMaterializationMarkers nodeIndex source)
  | duplicateUpdate (nodeIndex : Nat) (path : FragmentPath) :
      Defensive (.fragmentRewrite nodeIndex (.duplicateUpdate path))
  | unknownPath (nodeIndex : Nat) (path : FragmentPath) :
      Defensive (.fragmentRewrite nodeIndex (.unknownPath path))
  | ambiguousPath (nodeIndex : Nat) (path : FragmentPath) :
      Defensive (.fragmentRewrite nodeIndex (.ambiguousPath path))
  | unknownNodeHandle (node : NodeHandle) : Defensive (.document (.unknownNodeHandle node))
  | duplicateReplacement (node : NodeHandle) : Defensive (.document (.duplicateReplacement node))
  | externalOrder (completed : List FragmentPath) (previous next : FragmentPath) :
      Defensive (.commit ⟨completed, .externalOrder previous next⟩)
  | panic (message : String) : Defensive (.panic message)

/-- An error of the buffer format is the user's and not a defect of the engine. -/
theorem not_defensive_document {e : Adls.Error} (h : e.OfBuffer) :
    ¬ (Error.document e).Defensive := by
  intro hd
  cases hd <;> exact h

/-! ## Planning -/

section
variable [Sha256] {entries selected : List InventoryEntry} {op : Operation}
  {selection : SelectionKind}

/-- What is embedded has a file, because its classification says so. A forced embed is refused on a
fragment without a file, since that is in no conflict. -/
theorem decideEntry_embed (h : ForcedOnConflicts op selection selected) {entry : InventoryEntry}
    (hentry : entry ∈ selected) (hembed : (decideEntry op selection entry).2 = .act .embed) :
    entry.filesystem.isSome := by
  have hc := classified entry.embedded entry.baseline entry.filesystem
  have hd := decided op selection (classify entry.embedded entry.baseline entry.filesystem)
  rw [show decision op selection _ = _ from hembed] at hd
  generalize hclass : classify entry.embedded entry.baseline entry.filesystem = c at hc hd
  cases hd with
  | forced hforced =>
    have hconflict := (h (by rw [hforced]; simp)).2.2 entry hentry
    rw [hclass] at hconflict
    generalize entry.filesystem = filesystem at hc
    generalize entry.baseline = baseline at hc
    rcases hconflict with rfl | rfl
    · cases hc
      rfl
    · cases hc
      rfl
  | embed _ =>
    generalize entry.filesystem = filesystem at hc
    generalize entry.baseline = baseline at hc
    cases hc
    rfl

/-- A plan fails with an error for the user: force needs a selection, or a fragment that exists is
in a state that cannot be forced. -/
theorem mapPlanError_not_defensive (e : PlanError)
    (h : e = .forceRequiresExplicitSelection ∨ ∃ index state,
      e = .invalidForcedState index state ∧ index < (classifyEntries selected).length) :
    ¬ (mapPlanError e (classifyEntries selected)).Defensive := by
  intro hd
  rcases h with rfl | ⟨index, state, rfl, hlt⟩
  · cases hd
  · rw [mapPlanError, List.getElem?_eq_getElem hlt] at hd
    cases hd

/-! ## The new document -/

/-- Updates of nodes of a document that each name fragments of their node. -/
def AddressesNodes (document : Document) (nodeUpdates : OrdMap Nat (List FragmentUpdate)) : Prop :=
  ∀ node ∈ nodeUpdates.entries, ∃ n ∈ document.sources, n.handle.index = node.1 ∧
    ∃ p, Parses n p ∧ Addressed node.2 p.view

/-- A node of the document is found again by its index and parses again, so rewriting it can fail
only in the replacements. -/
theorem rewriteNode_failsIn {document : Document} (ho : document.Ordered) {n : SourceNode}
    (hn : n ∈ document.sources) {node : Nat × List FragmentUpdate}
    (hindex : n.handle.index = node.1) {p : ParsedSource} (hp : Parses n p)
    (haddressed : Addressed node.2 p.view) (rewritten : List (NodeHandle × Str)) :
    FailsIn (¬ ·.Defensive) (rewriteNode document rewritten node) := by
  unfold rewriteNode
  rw [(findNode_eq_some ho).2 ⟨hn, hindex⟩]
  refine .bind (.ok _) fun source hsource => ?_
  obtain rfl := Except.ok.inj hsource
  rw [show ParsedSource.parse n.kind n.source = .ok p from hp]
  refine .bind (.ok _) fun parsed hparsed => ?_
  obtain rfl := Except.ok.inj hparsed
  refine .bind ((ParsedSource.rewrite_failsIn haddressed).mapError fun e he => ?_) fun out _ => ?_
  · rw [he]
    exact fun hd => by cases hd
  · cases out with
    | owned text => exact .ok _
    | borrowed text => exact .ok _

omit [Sha256] in
/-- What is wrong with a new document is reported as an error of its markers, of its paths or of the
format. -/
theorem validatePreparedDocument_failsIn (bytes : Bytes) :
    FailsIn (¬ ·.Defensive) (validatePreparedDocument bytes) := by
  refine .bind ((Document.parse_failsIn _ _).mapError fun e he => not_defensive_document he)
    fun _ _ => .bind (.foldlM (fun paths n _ => ?_) _) fun _ _ => .ok _
  refine .bind (.mapError_of (fun e hd => by cases hd) _) fun _ _ =>
    .foldlM (fun paths f _ => ?_) _
  exact .bind (.require (fun hd => by cases hd) _) fun _ _ => .ok _

/-- Updates that name fragments of their nodes make no defensive failure. The nodes are found
again and parse again, so what can fail is the rewriting of a text, of the document, and the
validation. -/
theorem materializeDocument_failsIn {bytes : Bytes} {document : Document}
    (hdocument : Document.parse 1 bytes = .ok document)
    {nodeUpdates : OrdMap Nat (List FragmentUpdate)} (h : AddressesNodes document nodeUpdates) :
    FailsIn (¬ ·.Defensive) (materializeDocument bytes nodeUpdates) := by
  obtain ⟨document₂, hparse, hsources⟩ := parse_document hdocument 2
  have ho := (Document.parse_ordered hparse).1
  unfold materializeDocument
  rw [hparse]
  refine .bind (.ok _) fun document' heq => ?_
  obtain rfl := Except.ok.inj heq
  refine .bind (.foldlM (fun rewritten node hnode => ?_) _) fun rewritten hrewritten => ?_
  · obtain ⟨n, hn, hindex, p, hp, haddressed⟩ := h node hnode
    have hn₂ : n.replaced 2 [] ∈ document₂.sources := by
      rw [hsources]
      exact List.mem_map_of_mem hn
    exact rewriteNode_failsIn ho hn₂ hindex hp haddressed rewritten
  · obtain ⟨steps, hsteps, rfl⟩ := rewriteNodes_eq_ok.1 hrewritten
    rw [List.nil_append]
    refine .bind ((Document.rewrite_failsIn ho 3
      (newText_nodup (Rewrites.sorted ho hsteps nodeUpdates.sorted))
      (newText_handles ho hsteps)).mapError fun e he => not_defensive_document he) fun out _ => ?_
    cases out with
    | borrowed bytes => exact .ok _
    | owned bytes => exact .bind (validatePreparedDocument_failsIn bytes) fun _ _ => .ok _

/-! ## From discovery on -/

variable {δ : Type} {bytes : Bytes} {root : SourceRoot δ} {ds : List DiscoveredFragment}
  {inventory : Inventory δ}

/-- What is prepared for selected entries names fragments of their nodes. An entry has the index of
its node, and the node parses to a fragment with its path. -/
theorem Discovers.addressesNodes (h : Discovers bytes root ds inventory)
    (hselected : selected.Sublist inventory.entries) {prepared : Prepared}
    (hprepared : PreparedFrom (selected.map (decideEntry op selection)) prepared)
    {document : Document} (hdocument : Document.parse 1 bytes = .ok document) :
    AddressesNodes document prepared.nodeUpdates := by
  intro node hnode
  obtain ⟨i, updates⟩ := node
  have hfind := OrdMap.find?_eq_some.2 hnode
  have hupdates : updates = updatesAt (selected.map (decideEntry op selection)) i := by
    rw [← hprepared.updates, hfind]
    rfl
  have hentry : ∀ u ∈ updates, ∃ entry ∈ inventory.entries,
      entry.nodeIndex = i ∧ entry.path = u.path := by
    intro u hu
    rw [hupdates] at hu
    obtain ⟨entry, hentry, hi, hu⟩ := mem_updatesAt_decideEntry.1 hu
    exact ⟨entry, hselected.subset hentry, hi, (updateOf_path hu).symm⟩
  have hnodup : (updates.map FragmentUpdate.path).Nodup := by
    rw [hupdates]
    refine (map_path_updatesAt _ _).nodup ?_
    rw [List.map_map]
    exact ((h.sorted.imp ne_of_lt).sublist (hselected.map InventoryEntry.path))
  have hne : updates ≠ [] := fun hnil => hprepared.nonempty i (hnil ▸ hfind)
  obtain ⟨u, hu⟩ := List.exists_mem_of_ne_nil updates hne
  obtain ⟨entry, hmem, rfl, -⟩ := hentry u hu
  obtain ⟨document', n, p, f, hdocument', hn, hindex, hp, hpnodup, -⟩ := h.exists_view hmem
  obtain rfl := Except.ok.inj (hdocument.symm.trans hdocument')
  refine ⟨n, hn, hindex, p, hp, hnodup, fun u hu => ?_⟩
  obtain ⟨entry', hmem', hindex', hpath⟩ := hentry u hu
  obtain ⟨document'', n', p', f', hdocument'', hn', hindex'', hp', -, hf', hpath'⟩ :=
    h.exists_view hmem'
  obtain rfl := Except.ok.inj (hdocument.symm.trans hdocument'')
  have ho := (Document.parse_ordered hdocument).1
  have heq : some n' = some n := by
    rw [← (findNode_eq_some ho).2 ⟨hn', hindex''⟩, ← (findNode_eq_some ho).2 ⟨hn, hindex⟩, hindex']
  obtain rfl := Option.some.inj heq
  obtain rfl := Except.ok.inj (hp.symm.trans hp')
  exact ⟨f', by rw [← hpath, ← hpath']; exact filter_path_eq hpnodup hf'⟩

/-- Nothing defensive fails before the commit. The plan fails for the user only, the entries can be
prepared, and the updates name fragments that are there. -/
theorem Discovers.prepareOutputs_failsIn (h : Discovers bytes root ds inventory)
    (hselected : selected.Sublist inventory.entries) :
    FailsIn (¬ ·.Defensive) (prepareOutputs bytes (classifyEntries selected) selection op) := by
  obtain ⟨document, hdocument, -⟩ := h.document
  unfold prepareOutputs
  refine .bind ((plan_failsIn _ _ _).mapError fun e he => mapPlanError_not_defensive e ?_)
    fun decisions hplan => ?_
  · simpa using he
  · obtain ⟨rfl, hforced⟩ := plan_eq_ok.1 (mapError_eq_ok.1 hplan)
    rw [forcedOnConflicts_iff] at hforced
    rw [zip_decisions]
    obtain ⟨prepared, hprepared⟩ := @prepare_ok (selected.map (decideEntry op selection))
      (List.forall_mem_map.2 fun entry hentry => decideEntry_embed hforced hentry)
    rw [hprepared]
    refine .bind (.ok _) fun prepared' heq => ?_
    obtain rfl := Except.ok.inj heq
    refine .bind (materializeDocument_failsIn hdocument ?_) fun _ _ => .ok _
    exact h.addressesNodes hselected (prepare_eq_ok hprepared) hdocument

/-- Nothing defensive fails in a command whose inventory was discovered and whose selection was
accepted, whatever the filesystem does. Such failures would be defects of the engine: a node or a
fragment that is not found again, a new document that is refused, outputs in the wrong order, and
panics. -/
theorem mutateWithAccess_not_defensive {σ σ' φ ε ε' : Type} {fs : FileSystem σ δ φ}
    {discovery : AccessPolicy σ ε} {origin : Option DocumentOrigin} {s t : σ}
    (hdiscovered :
      Inventory.discoverInner fs bytes root origin discovery s = (.ok inventory, t))
    {selectors : List FragmentPath} (hselected : inventory.select selectors = .ok selected)
    (commitFilesystem : SourceRoot δ → CommitFilesystem σ') (access : AccessPolicy σ' ε')
    (documentPath : Path) (op : Operation) (s' : σ') :
    ∀ error, (mutateWithAccess commitFilesystem access documentPath inventory
      (classifyEntries selected) (selectionKind selectors) op s').1 = .error (.operation error) →
      ¬ error.Defensive := by
  intro error herror
  obtain ⟨ds, hds⟩ := exists_discovers hdiscovered
  obtain ⟨-, hchosen⟩ := (Inventory.select_eq_ok hds.sorted).1 hselected
  have hsublist : selected.Sublist inventory.entries := hchosen ▸ chosen_sublist _ _
  have hsorted : InPathOrder selected := hds.sorted.sublist (hsublist.map _)
  obtain ⟨t', hrun⟩ : ∃ t', mutateWithAccess commitFilesystem access documentPath inventory
      (classifyEntries selected) (selectionKind selectors) op s' = (.error (.operation error), t') :=
    ⟨_, Prod.ext herror rfl⟩
  unfold mutateWithAccess at hrun
  rcases Run.bind_eq_error.1 hrun with hprepare | ⟨prepared, u, hprepare, hcommit⟩
  · have hfails : FailsIn (¬ ·.Defensive) (prepareOutputs bytes (classifyEntries selected)
        (selectionKind selectors) op) := hds.prepareOutputs_failsIn hsublist
    rw [hds.documentBytes] at hprepare
    cases hprepared : prepareOutputs bytes (classifyEntries selected) (selectionKind selectors) op with
    | ok prepared =>
      rw [operation_of_ok hprepared] at hprepare
      cases hprepare
    | error e =>
      rw [operation_of_error hprepared] at hprepare
      cases hprepare
      exact hfails _ hprepared
  · obtain ⟨prepared, output⟩ := prepared
    obtain ⟨hprepare, -⟩ := operation_eq_ok.1 hprepare
    obtain ⟨-, hprepare, -⟩ := prepareOutputs_eq_ok.1 hprepare
    have hfails := @commitUsing_failsIn _ _ access (commitFilesystem inventory.sourceRoot) _
      (absentTargets inventory.entries) (output.map fun bytes => ⟨documentPath, bytes⟩)
      ((prepare_eq_ok hprepare).extracted_sorted hsorted)
    dsimp only at hcommit
    split at hcommit
    · cases hcommit
    · rcases Run.bind_eq_error.1 hcommit with hcommit | ⟨_, _, _, hcommit⟩
      · rw [Run.mapError_apply, Prod.mk.injEq] at hcommit
        obtain ⟨hcommit, -⟩ := hcommit
        generalize hr : (commitUsing access (commitFilesystem inventory.sourceRoot) _ _ _ u).1 = r
          at hcommit
        have hwrite := hfails u
        rw [hr] at hwrite
        cases r with
        | ok _ => cases hcommit
        | error failure =>
          cases failure with
          | access source => cases hcommit
          | operation failure =>
            cases hcommit
            intro hd
            cases hd
            exact hwrite _ rfl
      · cases hcommit

end

/-- The error of a document that cannot be written. -/
def sampleWriteError : Error :=
  .commit ⟨[], .writeDocument ⟨true, [['w'], ['d']]⟩ ⟨.other, "read-only filesystem"⟩⟩

set_option maxRecDepth 4000 in
/-- A forced embed of the conflict of the sample gets to the write of the document and fails there.
That is a failure of the filesystem, which the engine reports as such. -/
theorem mutateWithAccess_not_defensive_sample :
    (@mutateWithAccess lfDigest _ _ _ (realFilesystem (snapshotFilesystem sampleSnapshot))
      AccessPolicy.direct ⟨true, [['w'], ['d']]⟩ sampleInventory
      (@classifyEntries lfDigest sampleInventory.entries) (selectionKind [samplePath])
      (.embed true) ()).1 = .error (.operation sampleWriteError) ∧ ¬ sampleWriteError.Defensive :=
  ⟨rfl, @mutateWithAccess_not_defensive lfDigest _ _ _ _ _ _ _ _ _ _ _ _ _ _ _
    sampleInventory_discoveredInner [samplePath] rfl
    (realFilesystem (snapshotFilesystem sampleSnapshot)) AccessPolicy.direct
    ⟨true, [['w'], ['d']]⟩ (.embed true) () _ rfl⟩

end Zwirn.Sync
