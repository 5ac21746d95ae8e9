import Zwirn.Sync.Separate

/-!
# Discovery after a command

What discovery finds after a command that returned: the nodes of the document with the same
fragments in the same order, each with what the command has made of it
(`DocumentDiscovered.rereads`). An entry that the command had nothing to do with is found as it was
(`Ran.unchanged`).
-/

namespace Zwirn.Sync

open Lib Fragment Adls

/-! ## The fragments of an updated document -/

/-- A fragment is discovered in one way only. -/
theorem IsDiscovered.unique {nodeIndex : Nat} {f : FragmentView} {d d' : DiscoveredFragment}
    (h : IsDiscovered nodeIndex f d) (h' : IsDiscovered nodeIndex f d') : d' = d := by
  have heq := discoverFragment_eq_ok.2 h
  rw [discoverFragment_eq_ok.2 h'] at heq
  exact Except.ok.inj heq

/-- The fragments of a node that parses are discovered. -/
theorem Parses.discovered {n : SourceNode} {p : ParsedSource} (h : Parses n p) :
    ∃ ds, NodeDiscovered n ds ∧ List.Forall₂ (IsDiscovered n.handle.index) p.view ds := by
  have hall : List.Forall₂ (IsDiscovered n.handle.index) p.view (p.fragments.map fun f =>
      ⟨n.handle.index, f.path, .fromValidated f.view.source f.unmarked, f.baseline⟩) := by
    rw [ParsedSource.view, List.forall₂_map_left_iff, List.forall₂_map_right_iff, List.forall₂_same]
    exact fun f _ => ⟨rfl, rfl, CanonicalSource.tryFrom_eq_ok.2 ⟨f.unmarked, rfl⟩, rfl⟩
  exact ⟨_, ⟨p, h, hall⟩, hall⟩

section
variable [Sha256]

/-- The hash of what is discovered of a fragment is that of its text. -/
theorem IsDiscovered.hash {nodeIndex : Nat} {f : FragmentView} {d : DiscoveredFragment}
    (h : IsDiscovered nodeIndex f d) : BaselineHash.fromSource d.embedded = .ofText f.source := by
  have hcanonical := (CanonicalSource.tryFrom_eq_ok.1 h.embedded).2
  rw [BaselineHash.fromSource_eq]
  apply BaselineHash.bytes_injective
  simp only [BaselineHash.ofText, hcanonical, canonicalizeSource_idem]

/-- What is discovered of a fragment of the nodes, before the updates and after them. -/
def Rereads (nodes : List SourceNode) (nodeUpdates : OrdMap Nat (List FragmentUpdate))
    (d d' : DiscoveredFragment) : Prop :=
  ∃ n ∈ nodes, ∃ p, Parses n p ∧ ParsedSource.parse n.kind p.source = .ok p ∧
    Addressed ((nodeUpdates.find? d.nodeIndex).getD []) p.view ∧ ∃ f ∈ p.fragments,
      IsDiscovered n.handle.index f.view d ∧ IsDiscovered n.handle.index
        (f.reread p.source (f.view.wanted ((nodeUpdates.find? d.nodeIndex).getD []))) d'

/-- A document whose nodes are updated has the fragments of the document. Updates keep the nodes and
the paths, so the fragments are in the same order again. -/
theorem DocumentDiscovered.rereads {nodes nodes' : List SourceNode} {ds : List DiscoveredFragment}
    (h : DocumentDiscovered nodes ds) {nodeUpdates : OrdMap Nat (List FragmentUpdate)}
    (hnodes : List.Forall₂ (NodeUpdated nodeUpdates) nodes nodes') (hvalid : ValidFragments nodes') :
    ∃ ds', DocumentDiscovered nodes' ds' ∧ List.Forall₂ (Rereads nodes nodeUpdates) ds ds' := by
  refine discoverFragments_of_aligned (fun d d' hd => ?_) h
    (forall₂_of_mem_right ((List.forall₂_and_left _ _).2 ⟨fun n hn => hn, hnodes⟩) ?_)
  · obtain ⟨_, -, p, -, -, -, f, -, hdiscovered, hdiscovered'⟩ := hd
    rw [hdiscovered.path, hdiscovered'.path, FragmentPlace.reread]
    split <;> rw [← FragmentView.wanted_path ((nodeUpdates.find? d.nodeIndex).getD []) f.view]
  · intro n n' hn' hboth ds hds
    obtain ⟨hn, hupdated⟩ := hboth
    obtain ⟨p', hp', hnodup⟩ := hvalid.node hn'
    obtain ⟨p, hp, hparse, haddressed, hview⟩ := hupdated.view_eq hp' hnodup rfl
    obtain ⟨p₁, hp₁, hall⟩ := hds
    obtain rfl := Except.ok.inj (hp.symm.trans hp₁)
    obtain ⟨ds', hds', hall'⟩ := hp'.discovered
    refine ⟨ds', hds', ?_⟩
    rw [ParsedSource.view, List.forall₂_map_left_iff] at hall
    rw [hview, List.forall₂_map_left_iff, hupdated.index] at hall'
    have hmem := (List.forall₂_and_left _ _).2 ⟨fun f hf => hf, hall⟩
    refine forall₂_trans (fun d f d' hd hd' => ?_) hmem.flip hall'
    rw [← hd.2.nodeIndex] at haddressed hd'
    refine ⟨n, hn, p, hp, hparse, haddressed, f, hd.1, hd.2, ?_⟩
    rwa [hd.2.nodeIndex] at hd' ⊢

/-- What a command has left of an entry that is discovered again. Its embedded text and its hash are
as they were unless an update names it, and its file unless it is extracted. -/
structure Rediscovered (prepared : Prepared) (entry entry' : InventoryEntry) : Prop where
  nodeIndex : entry'.nodeIndex = entry.nodeIndex
  path : entry'.path = entry.path
  target : entry'.target = entry.target
  embedded : (∀ source, .replace entry.path source ∉
    (prepared.nodeUpdates.find? entry.nodeIndex).getD []) → entry'.embedded = entry.embedded
  baseline : entry.path ∉ ((prepared.nodeUpdates.find? entry.nodeIndex).getD []).map
    FragmentUpdate.path → entry'.baseline = entry.baseline
  record : .record entry.path ∈ (prepared.nodeUpdates.find? entry.nodeIndex).getD [] →
    entry'.baseline = some (.fromSource entry.embedded)
  extracted : entry ∈ prepared.extracted → entry'.filesystem = some entry.embedded
  kept : entry ∉ prepared.extracted → entry'.filesystem = entry.filesystem

/-- An entry that the command has nothing to do with is found as it was. -/
theorem Rediscovered.unchanged {prepared : Prepared} {entry entry' : InventoryEntry}
    (h : Rediscovered prepared entry entry') (hextracted : entry ∉ prepared.extracted)
    (hupdates : entry.path ∉ ((prepared.nodeUpdates.find? entry.nodeIndex).getD []).map
      FragmentUpdate.path) : entry' = entry := by
  have hembedded := h.embedded fun source hmem => hupdates (List.mem_map.2 ⟨_, hmem, rfl⟩)
  obtain ⟨hindex, hpath, htarget, -, hbaseline, -, -, hkept⟩ := h
  cases entry'
  cases entry
  rw [InventoryEntry.mk.injEq]
  exact ⟨hindex, hpath, hembedded, hbaseline hupdates, htarget, hkept hextracted⟩

/-- A fragment that is read again stands in the same node and has the same path. -/
theorem Rereads.nodeIndex_path {nodes : List SourceNode}
    {nodeUpdates : OrdMap Nat (List FragmentUpdate)} {d d' : DiscoveredFragment}
    (h : Rereads nodes nodeUpdates d d') : d'.nodeIndex = d.nodeIndex ∧ d'.path = d.path := by
  obtain ⟨n, -, p, -, -, -, f, -, hd, hd'⟩ := h
  refine ⟨hd'.nodeIndex.trans hd.nodeIndex.symm, ?_⟩
  rw [hd.path, hd'.path, FragmentPlace.reread]
  split <;> rw [← FragmentView.wanted_path ((nodeUpdates.find? d.nodeIndex).getD []) f.view]

/-- What the updates leave of a discovered fragment. The embedded source stays unless it is
replaced, and a record leaves the hash of the source. -/
theorem Rereads.kept {nodes : List SourceNode} {nodeUpdates : OrdMap Nat (List FragmentUpdate)}
    {d d' : DiscoveredFragment} (h : Rereads nodes nodeUpdates d d') {updates : List FragmentUpdate}
    (hupdates : updates = (nodeUpdates.find? d.nodeIndex).getD []) :
    ((∀ source, .replace d.path source ∉ updates) → d'.embedded = d.embedded) ∧
      (d.path ∉ updates.map FragmentUpdate.path → d'.baseline = d.baseline) ∧
      (.record d.path ∈ updates → d'.baseline = some (.fromSource d.embedded)) := by
  subst hupdates
  obtain ⟨n, -, p, -, hparse, haddressed, f, hf, hd, hd'⟩ := h
  have hkept := fragmentKept_reread hparse haddressed hf
  have hpath : f.view.path = d.path := hd.path.symm
  obtain ⟨-, hsource, hbaseline, hrecord⟩ := hkept
  rw [hpath] at hsource hbaseline hrecord
  refine ⟨fun hno => ?_, fun hno => ?_, fun hu => ?_⟩
  · have hembedded := hd'.embedded
    rw [hsource hno, hd.embedded] at hembedded
    exact (Except.ok.inj hembedded).symm
  · rw [hd'.baseline, hbaseline hno, hd.baseline]
  · rw [hd'.baseline, (hrecord hu).2, hd.hash]

end

/-! ## Runs that returned -/

section
variable {σ δ φ ε : Type} {fs : FileSystem σ δ φ} {access : AccessPolicy σ ε} {paths : ResolvedPaths}

/-- The targets that a disk shows. -/
def Workspace.targets (W : Workspace fs access paths) (d : Disk φ) : Set FragmentPath :=
  {path | ∃ inventory, W.Shows d inventory ∧ path ∈ inventory.targets}

/-- No target lies beneath another one. -/
theorem Workspace.targets_free (W : Workspace fs access paths) (d : Disk φ) :
    ∀ path ∈ W.targets d, ∀ other ∈ W.targets d, ¬ path.IsAncestor other := by
  rintro path ⟨inventory, hshows, entry, hentry, rfl⟩ other ⟨inventory', hshows', entry', hentry', rfl⟩
  rw [(hshows.unique hshows').2] at hentry'
  obtain ⟨i, -, -, document, ds, -, hds, hlists⟩ := hshows.listed
  have hpath : ∀ {entry}, entry ∈ inventory.entries → entry.path ∈ ds.map DiscoveredFragment.path := by
    intro entry hentry
    obtain ⟨d, hd, hisEntry⟩ := exists_left_of_forall₂ hlists.aligned hentry
    rw [hisEntry.path]
    exact List.mem_map_of_mem hd
  exact prefixFree_iff.1 hds.prefixFree _ (hpath hentry) _ (hpath hentry')

variable [Sha256]

/-- A mutating command returned: what it had prepared, and what stands. The discovery after the
command is compared with the one before it through these fields. -/
structure Ran (W : Workspace fs access paths) (request : Request) (op : Operation) (s : σ)
    (b : Batch δ) (t : σ) : Prop where
  shows_ : W.Shows (W.view s) b.inventory
  order : InPathOrder b.inventory.entries
  selected : b.selected = chosen request.selectors b.inventory.entries
  prepared : PreparedFrom
    (b.selected.map (decideEntry op (selectionKind request.selectors))) b.prepared
  materialized :
    materializeDocument b.inventory.documentBytes b.prepared.nodeUpdates = .ok b.output
  standing : ∃ i, (W.view s).document = some i ∧ Standing (W.view s) b.inventory.entries i
    (b.output.getD b.inventory.documentBytes) b.prepared.extracted (W.view t)

variable {W : Workspace fs access paths} {request : Request} {op : Operation} {s t u : σ}

/-- A mutating command that returns was prepared. A report is returned only behind all stages of the
request, and each of them has succeeded. -/
theorem exists_prepares (hmode : request.mode = .mutate op) {report : Report}
    (hrun : executeWithAccess fs access request s = (.ok report, t)) :
    ∃ b u, Prepares fs access request s b u ∧ b.op = op := by
  obtain ⟨paths, s₁, hpaths, h₁⟩ := Run.bind_eq_ok.1 hrun
  obtain ⟨inventory, s₂, hinventory, h₂⟩ := Run.bind_eq_ok.1 h₁
  obtain ⟨selected, s₃, hselected, h₃⟩ := Run.bind_eq_ok.1 h₂
  rw [hmode] at h₃
  obtain ⟨prepared, s₄, hprepared, -⟩ := Run.bind_eq_ok.1 h₃
  rw [operation_eq_ok] at hpaths hselected hprepared
  rw [hpaths.2] at hinventory
  exact ⟨⟨paths, inventory, selected, op, prepared.1, prepared.2⟩, s₂, ⟨hpaths.1,
    Run.mapError_eq_ok.1 hinventory, mapError_eq_ok.1 hselected.1, hmode, hprepared.1⟩, rfl⟩

/-- A mutating command that returns has run. What it has committed is on the disk, as the targets
are separate. -/
theorem exists_ran
    (hpaths : resolvePaths request.cwd request.document request.sourceRoot = .ok paths)
    (hmode : request.mode = .mutate op) (hseparate : W.Separate (W.targets (W.view s)))
    {report : Report} (hrun : executeWithAccess fs access request s = (.ok report, t)) :
    ∃ b, Ran W request op s b t ∧ report = b.report := by
  obtain ⟨b, u, h, rfl⟩ := exists_prepares hmode hrun
  obtain rfl : b.paths = paths := Except.ok.inj (h.paths.symm.trans hpaths)
  obtain ⟨-, hshows⟩ := h.shows W
  obtain ⟨horder, hselected, -, -⟩ := h.selected_sublist
  obtain ⟨-, hprepared, hmaterialized⟩ := h.preparedFrom
  obtain ⟨hreport, hstanding⟩ := h.finishes (hseparate.mono fun path hpath => ⟨_, hshows, hpath⟩) hrun
  exact ⟨b, ⟨hshows, horder, hselected, hprepared, hmaterialized, hstanding⟩, hreport⟩

namespace Ran
variable {b : Batch δ}

/-- The entries that discovery makes after a command that returned are made of what is read of the
updated nodes. -/
theorem reread (h : Ran W request op s b t) {inventory : Inventory δ}
    (hshows : W.Shows (W.view t) inventory) :
    inventory.documentBytes = b.output.getD b.inventory.documentBytes ∧ ∃ document,
      Document.parse 1 b.inventory.documentBytes = .ok document ∧ ValidFragments document.sources ∧
      List.Forall₂ (fun entry entry' => ∃ d d', Rereads document.sources b.prepared.nodeUpdates d d' ∧
        IsEntry b.inventory.sourceRoot d entry ∧ IsEntry inventory.sourceRoot d' entry')
          b.inventory.entries inventory.entries := by
  obtain ⟨i, -, -, document, ds, hparse, hds, hlists⟩ := h.shows_.listed
  obtain ⟨i', hdocument', hcontent', document', ds', hparse', hds', hlists'⟩ := hshows.listed
  obtain ⟨i₀, -, hstanding⟩ := h.standing
  obtain rfl : i' = i₀ := Option.some.inj (hdocument'.symm.trans hstanding.document)
  have hbytes : inventory.documentBytes = b.output.getD b.inventory.documentBytes :=
    Option.some.inj (hcontent'.symm.trans hstanding.bytes)
  refine ⟨hbytes, document, hparse, hds.valid, ?_⟩
  obtain ⟨document'', hparse'', hupdated⟩ := materializeDocument_spec h.materialized hparse 1
  rw [hbytes] at hparse'
  obtain rfl := Except.ok.inj (hparse'.symm.trans hparse'')
  obtain ⟨ds'', hds'', hrereads⟩ := hds.rereads hupdated hds'.valid
  obtain rfl := Except.ok.inj ((discoverFragments_eq_ok.2 hds').symm.trans
    (discoverFragments_eq_ok.2 hds''))
  have hright : List.Forall₂ (fun d entry' => ∃ d', Rereads document.sources
      b.prepared.nodeUpdates d d' ∧ IsEntry inventory.sourceRoot d' entry') ds inventory.entries :=
    forall₂_trans (fun d d' entry' hd hd' => ⟨d', hd, hd'⟩) hrereads hlists'.aligned
  exact forall₂_trans (fun entry d entry' hd hd' => ⟨d, hd'.choose, hd'.choose_spec.1, hd,
    hd'.choose_spec.2⟩) hlists.aligned.flip hright

/-- What discovery finds after a command that returned. The entries are aligned with the old ones,
and what each file holds is known from what was written. -/
theorem rediscovered (h : Ran W request op s b t) {inventory : Inventory δ}
    (hshows : W.Shows (W.view t) inventory) :
    inventory.documentBytes = b.output.getD b.inventory.documentBytes ∧
      List.Forall₂ (Rediscovered b.prepared) b.inventory.entries inventory.entries := by
  obtain ⟨hbytes, document, -, -, haligned⟩ := h.reread hshows
  obtain ⟨i, -, -, -, ds, -, -, hlists⟩ := h.shows_.listed
  obtain ⟨i', -, -, -, ds', -, -, hlists'⟩ := hshows.listed
  obtain ⟨i₀, -, hstanding⟩ := h.standing
  refine ⟨hbytes, ?_⟩
  refine forall₂_of_mem_right ((List.forall₂_and_left _ _).2 ⟨fun entry hentry => hentry, haligned⟩)
    fun entry entry' hentry' hboth => ?_
  obtain ⟨hentry, d, d', hd, hisEntry, hisEntry'⟩ := hboth
  obtain ⟨hindex, hpath⟩ := hd.nodeIndex_path
  have hpath' : entry'.path = entry.path := by rw [hisEntry'.path, hpath, hisEntry.path]
  have hkept := hd.kept rfl
  rw [← hisEntry.nodeIndex, ← hisEntry.path, ← hisEntry.embedded, ← hisEntry.baseline,
    ← hisEntry'.embedded, ← hisEntry'.baseline] at hkept
  have hfound := hlists.found entry hentry
  have hfound' := hlists'.found entry' hentry'
  rw [hpath'] at hfound'
  refine ⟨?_, hpath', ?_, hkept.1, hkept.2.1, hkept.2.2, fun hextracted => ?_, fun hnot => ?_⟩
  · rw [hisEntry'.nodeIndex, hindex, hisEntry.nodeIndex]
  · rw [hisEntry'.target, hisEntry.target, hpath, SourceRoot.namedPath, SourceRoot.namedPath,
      hshows.path, h.shows_.path]
  · exact hfound'.of_encoded (hstanding.written entry hextracted)
  · exact hfound.of_holds hfound' (hstanding.kept entry hentry hnot)

end Ran

end

end Zwirn.Sync
