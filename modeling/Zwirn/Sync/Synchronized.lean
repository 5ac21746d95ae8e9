import Zwirn.Sync.Guard
import Zwirn.Sync.Resume

/-!
# Synchronized fragments

What discovery and classification find after a command that returned. The fragments are those that
there were; what was recorded, embedded or extracted is synchronized, what was reported with a state
has this state, and the same command has nothing left to write. All this holds exactly when no text
that begins with LF was embedded behind a CR (`executeWithAccess_synchronizes_iff`).
-/

namespace Zwirn.Sync

open Lib Fragment Adls

/-! ## Classifications and decisions -/

section
variable [Sha256] {op : Operation} {selection : SelectionKind} {entry : InventoryEntry}

/-- A fragment is synchronized when its file has its text, and its hash is the one of this text. -/
theorem classify_eq_synchronized {embedded : CanonicalSource} {baseline : Option BaselineHash}
    {filesystem : Option CanonicalSource} : classify embedded baseline filesystem = .synchronized ↔
      filesystem = some embedded ∧ baseline = some (.fromSource embedded) := by
  refine ⟨fun h => ?_, fun h => ?_⟩
  · have hc := classified embedded baseline filesystem
    rw [h] at hc
    cases hc
    exact ⟨rfl, rfl⟩
  · rw [h.1, h.2]
    exact Classified.synchronized.unique

/-- The classification of an entry. -/
def InventoryEntry.classification (entry : InventoryEntry) : Classification :=
  classify entry.embedded entry.baseline entry.filesystem

/-- What is settled is synchronized. -/
theorem decideEntry_settled (h : (decideEntry op selection entry).2 = .settled) :
    entry.classification = .synchronized := by
  have hd := decided op selection entry.classification
  rw [show decision op selection entry.classification = .settled from h] at hd
  generalize entry.classification = c at hd
  cases hd
  rfl

/-- What is unresolved has its state, which is another one than synchronized. A synchronized entry
is settled or forced. -/
theorem decideEntry_unresolved {state : State}
    (h : (decideEntry op selection entry).2 = .unresolved state) :
    entry.classification.state = state ∧ entry.classification ≠ .synchronized := by
  have hdecision : decision op selection entry.classification = .unresolved state := h
  have hd := decided op selection entry.classification
  rw [hdecision] at hd
  generalize entry.classification = c at hd hdecision
  cases hd with
  | unresolved hforced =>
    refine ⟨rfl, fun heq => ?_⟩
    have hplan := planOne_eq_ok hforced selection c
    rw [hdecision, heq] at hplan
    cases Except.pure_eq_ok.1 hplan

/-- There is nothing to do for what is synchronized. -/
theorem decideEntry_synchronized (hop : op.forcedAction = none)
    (h : entry.classification = .synchronized) :
    (decideEntry op selection entry).2 = .settled := by
  have hplan := planOne_eq_ok hop selection entry.classification
  rw [h] at hplan
  exact (congrArg _ h).trans (Except.pure_eq_ok.1 hplan).symm

/-- What is recorded is in the file already. The cases are those of the table, and only matching and
converged fragments are recorded. -/
theorem decideEntry_record (h : (decideEntry op selection entry).2 = .act .record) :
    entry.filesystem = some entry.embedded := by
  have hc := classified entry.embedded entry.baseline entry.filesystem
  have hd := decided op selection entry.classification
  rw [show decision op selection entry.classification = .act .record from h] at hd
  rw [show classify entry.embedded entry.baseline entry.filesystem = entry.classification from rfl]
    at hc
  generalize entry.classification = c at hc hd
  generalize entry.filesystem = filesystem at hc ⊢
  generalize entry.baseline = baseline at hc
  cases hd with
  | forced hforced =>
    obtain ⟨-, haction⟩ | ⟨-, haction⟩ := Operation.forcedAction_eq_some.1 hforced
    · cases haction
    · cases haction
  | matching | converged =>
    cases hc
    rfl

end

/-! ## Replaced texts -/

/-- The fragments with a path have one place. A path occurs once in the document, so the two are the
same fragment of the same node. -/
theorem ValidFragments.behindCr {nodes : List SourceNode} (h : ValidFragments nodes)
    {n n' : SourceNode} (hn : n ∈ nodes) (hn' : n' ∈ nodes) {p p' : ParsedSource} (hp : Parses n p)
    (hp' : Parses n' p') {f : ParsedFragment p.source} {f' : ParsedFragment p'.source}
    (hf : f ∈ p.fragments) (hf' : f' ∈ p'.fragments) (hpath : f'.path = f.path)
    (hcr : f.BehindCr p.source) : f'.BehindCr p'.source := by
  obtain ⟨ps, hps, hnodup⟩ := h
  obtain ⟨p₁, hmem, hp₁⟩ := exists_right_of_forall₂ hps hn
  obtain rfl := Except.ok.inj (hp.symm.trans hp₁)
  obtain ⟨p₂, hmem', hp₂⟩ := exists_right_of_forall₂ hps hn'
  obtain rfl := Except.ok.inj (hp'.symm.trans hp₂)
  rw [fragmentPaths, List.map_flatMap, List.nodup_flatMap] at hnodup
  have hview : ∀ {p : ParsedSource} {f : ParsedFragment p.source}, f ∈ p.fragments →
      f.path ∈ p.view.map FragmentView.path := fun hf =>
    List.mem_map.2 ⟨_, List.mem_map_of_mem hf, rfl⟩
  obtain rfl : p = p' := by
    by_contra hne
    have : Std.Symm (Function.onFun List.Disjoint fun p : ParsedSource =>
      p.view.map FragmentView.path) := ⟨fun _ _ hab => hab.symm⟩
    exact hnodup.2.forall hmem hmem' hne (hview hf) (hpath ▸ hview hf')
  have hfragments := hnodup.1 p hmem
  rw [ParsedSource.view, List.map_map] at hfragments
  rwa [List.inj_on_of_nodup_map hfragments hf' hf hpath]

/-- The source begins with a LF, and would replace a text that stands behind a CR. -/
def LosesLf (nodes : List SourceNode) (path : FragmentPath) (source : CanonicalSource) : Prop :=
  source.value.head? = some '\n' ∧ ∃ n ∈ nodes, ∃ p, Parses n p ∧ ∃ f ∈ p.fragments,
    f.path = path ∧ f.BehindCr p.source

/-- What is read of a fragment that was replaced: the source, or, where it loses the LF it begins
with, the rest of it. -/
theorem Rereads.replaced [Sha256] {nodes : List SourceNode} (hvalid : ValidFragments nodes)
    {nodeUpdates : OrdMap Nat (List FragmentUpdate)} {d d' : DiscoveredFragment}
    (h : Rereads nodes nodeUpdates d d') {source : CanonicalSource}
    (hu : .replace d.path source ∈ (nodeUpdates.find? d.nodeIndex).getD []) :
    (LosesLf nodes d.path source → source.value = '\n' :: d'.embedded.value) ∧
      (¬ LosesLf nodes d.path source →
        d'.embedded = source ∧ d'.baseline = some (.fromSource source)) := by
  obtain ⟨n, hn, p, hp, hparse, haddressed, f, hf, hd, hd'⟩ := h
  have hpath : f.view.path = d.path := hd.path.symm
  rw [FragmentView.wanted_replace haddressed.nodup hu hpath, FragmentPlace.reread] at hd'
  refine ⟨fun hloses => ?_, fun hkeeps => ?_⟩
  · obtain ⟨hlf, n', hn', p', hp', f', hf', hpath', hcr⟩ := hloses
    have hbehind := hvalid.behindCr hn' hn hp' hp hf' hf (hpath.trans hpath'.symm) hcr
    rw [if_pos ⟨hbehind, hlf⟩] at hd'
    obtain ⟨rest, hrest⟩ := List.head?_eq_some_iff.1 hlf
    have hembedded := hd'.embedded
    dsimp only at hembedded
    rw [hrest] at hembedded
    exact CanonicalSource.tryFrom_tail hrest hembedded
  · rw [if_neg fun hboth => hkeeps ⟨hboth.2, n, hn, p, hp, f, hf, hpath, hboth.1⟩] at hd'
    have hembedded := hd'.embedded
    dsimp only at hembedded
    rw [CanonicalSource.tryFrom_value] at hembedded
    exact ⟨(Except.ok.inj hembedded).symm, hd'.baseline⟩

/-- The marker line in front of the fragment ends with CR LF. -/
def BehindCrLf (nodes : List SourceNode) (path : FragmentPath) : Prop :=
  ∃ n ∈ nodes, ∃ p, Parses n p ∧ ∃ f ∈ p.fragments, f.path = path ∧ f.BehindCrLf p.source

/-- The LF that a fragment has lost is the second half of the line end in front of it. The opening
line ended with CR, and with the LF behind it it ends with CR LF. -/
theorem LosesLf.behindCrLf [Sha256] {nodes nodes' : List SourceNode}
    {nodeUpdates : OrdMap Nat (List FragmentUpdate)}
    (hnodes : List.Forall₂ (NodeUpdated nodeUpdates) nodes nodes') (hvalid : ValidFragments nodes)
    (hvalid' : ValidFragments nodes') {d d' : DiscoveredFragment}
    (h : Rereads nodes nodeUpdates d d') {source : CanonicalSource}
    (hloses : LosesLf nodes d.path source)
    (hu : .replace d.path source ∈ (nodeUpdates.find? d.nodeIndex).getD []) :
    BehindCrLf nodes' d.path := by
  obtain ⟨n, hn, p, hp, hparse, haddressed, f, hf, hd, -⟩ := h
  obtain ⟨hlf, n₁, hn₁, p₁, hp₁, f₁, hf₁, hpath₁, hcr⟩ := hloses
  have hpath : f.view.path = d.path := hd.path.symm
  have hbehind := hvalid.behindCr hn₁ hn hp₁ hp hf₁ hf (hpath.trans hpath₁.symm) hcr
  obtain ⟨n', hn', hupdated⟩ := exists_right_of_forall₂ hnodes hn
  obtain ⟨p', hp', hnodup⟩ := hvalid'.node hn'
  have hwanted := FragmentView.wanted_replace haddressed.nodup hu hpath
  rw [hd.nodeIndex] at hwanted
  obtain ⟨f', hf', hpath', hcrlf⟩ := hupdated.behindCrLf hp' hnodup rfl hp hf hbehind (by
    rw [hwanted]; exact hlf)
  exact ⟨n', hn', p', hp', f', hf', hpath'.trans hpath, hcrlf⟩

/-! ## Another list of the same paths -/

section
variable {σ δ φ ε : Type} {fs : FileSystem σ δ φ} {access : AccessPolicy σ ε}
  {paths : ResolvedPaths} {d : Disk φ} {root : SourceRoot δ} {origin : Option DocumentOrigin}
  {seen : List FileIdentity}

/-- What is at a target does not depend on the fragment. The entries of the other fragments have the
same files. -/
theorem Lists.of_paths {ds ds' : List DiscoveredFragment} {entries : List InventoryEntry}
    (h : Lists d root origin seen ds entries)
    (hpaths : List.Forall₂ (fun f f' => f'.path = f.path) ds ds') :
    ∃ entries', Lists d root origin seen ds' entries' := by
  induction hpaths generalizing seen entries with
  | nil => exact ⟨[], .nil⟩
  | @cons f f' ds ds' hpath _ ih =>
    cases entries with
    | nil => cases h.aligned
    | cons entry entries =>
      obtain ⟨⟨hentry, hfound, hnamed, hapart⟩, hrest⟩ := lists_cons.1 h
      have hsame : entry.path = f'.path := hentry.path.trans hpath.symm
      have htarget := hentry.target
      rw [← hpath] at htarget
      rw [hsame] at hfound hapart hrest
      obtain ⟨entries', hentries'⟩ := ih hrest
      refine ⟨⟨f'.nodeIndex, f'.path, f'.embedded, f'.baseline, entry.target, entry.filesystem⟩ ::
        entries', lists_cons.2 ⟨⟨⟨rfl, rfl, rfl, rfl, htarget⟩, hfound, hnamed, hapart⟩, hentries'⟩⟩

variable [Sha256] {W : Workspace fs access paths} {request : Request} {op : Operation} {s t : σ}
  {b : Batch δ}

/-- After a command that returned there is a document, with nodes that are updated, in which no path
occurs twice. -/
theorem Ran.updated (h : Ran W request op s b t) {document : Document}
    (hparse : Document.parse 1 b.inventory.documentBytes = .ok document) : ∃ document',
      Document.parse 1 (b.output.getD b.inventory.documentBytes) = .ok document' ∧
        List.Forall₂ (NodeUpdated b.prepared.nodeUpdates) document.sources document'.sources ∧
        ValidFragments document'.sources := by
  obtain ⟨document', hparse', hupdated⟩ := materializeDocument_spec h.materialized hparse 1
  refine ⟨document', hparse', hupdated, ?_⟩
  cases houtput : b.output with
  | some bytes =>
    have hmaterialized := h.materialized
    rw [houtput] at hmaterialized hparse'
    exact validFragments_of_validate (validate_of_materialize hmaterialized) hparse'
  | none =>
    rw [houtput] at hparse'
    obtain rfl := Except.ok.inj (hparse.symm.trans hparse')
    obtain ⟨-, -, -, document₁, ds, hparse₁, hds, -⟩ := h.shows_.listed
    obtain rfl := Except.ok.inj (hparse.symm.trans hparse₁)
    exact hds.valid

/-- Discovery finds an inventory after a command that returned. -/
theorem Ran.shows_again (h : Ran W request op s b t) :
    ∃ inventory, W.Shows (W.view t) inventory := by
  obtain ⟨i, hi, -, document, ds, hparse, hds, hlists⟩ := h.shows_.listed
  obtain ⟨i', hi', hstanding⟩ := h.standing
  obtain rfl := Option.some.inj (hi.symm.trans hi')
  obtain ⟨document', hparse', hupdated, hvalid⟩ := h.updated hparse
  obtain ⟨ds', hds', hrereads⟩ := hds.rereads hupdated hvalid
  obtain ⟨entries', hentries'⟩ := (hstanding.lists h.order hlists).of_paths
    (hrereads.imp fun _ _ hd => hd.nodeIndex_path.2)
  exact ⟨⟨b.inventory.sourceRoot, _, entries'⟩, h.shows_.path, h.shows_.isRoot, i,
    hstanding.document, hstanding.bytes, document', ds', hparse', hds', hentries'⟩

/-! ## Entries that are found again -/

/-- The request selects the path. -/
def Request.Selects (request : Request) (path : FragmentPath) : Prop :=
  request.selectors = [] ∨ path ∈ request.selectors

/-- A run selects the entries of its inventory that the request selects. -/
theorem Ran.mem_selected (h : Ran W request op s b t) {entry : InventoryEntry} :
    entry ∈ b.selected ↔ entry ∈ b.inventory.entries ∧ request.Selects entry.path := by
  rw [h.selected, mem_chosen]
  rfl

/-- The update of an entry is the one of its decision. -/
theorem Ran.update_iff (h : Ran W request op s b t) {entry : InventoryEntry}
    (hentry : entry ∈ b.inventory.entries) {u : FragmentUpdate} (hpath : u.path = entry.path) :
    u ∈ (b.prepared.nodeUpdates.find? entry.nodeIndex).getD [] ↔ entry ∈ b.selected ∧
      updateOf (decideEntry op (selectionKind request.selectors) entry) = some u := by
  rw [h.prepared.updates, mem_updatesAt_decideEntry]
  refine ⟨fun hu => ?_, fun hu => ⟨entry, hu.1, rfl, hu.2⟩⟩
  obtain ⟨entry₁, hselected, -, hupdate⟩ := hu
  obtain rfl := h.order.path_inj (h.mem_selected.1 hselected).1 hentry
    ((updateOf_path hupdate).symm.trans hpath)
  exact ⟨hselected, hupdate⟩

/-- An entry that the command does not act on is found as it was. No output and no update of the
batch is about it. -/
theorem Ran.unchanged (h : Ran W request op s b t) {entry entry' : InventoryEntry}
    (hentry : entry ∈ b.inventory.entries) (hfound : Rediscovered b.prepared entry entry')
    (hnone : entry ∈ b.selected → ∀ action,
      (decideEntry op (selectionKind request.selectors) entry).2 ≠ .act action) :
    entry' = entry := by
  refine hfound.unchanged (fun hextracted => ?_) fun hmem => ?_
  · obtain ⟨hselected, hextract⟩ := h.prepared.mem_extracted.1 hextracted
    exact hnone hselected _ hextract
  · obtain ⟨u, hu, hpath⟩ := List.mem_map.1 hmem
    obtain ⟨hselected, hupdate⟩ := (h.update_iff hentry hpath).1 hu
    obtain ⟨action, hact⟩ := updateOf_acts hupdate
    exact hnone hselected action hact

/-- An entry that the command has settled or acted on is synchronized, if what was embedded is read
back. -/
theorem Ran.synchronized (h : Ran W request op s b t) {entry entry' : InventoryEntry}
    (hselected : entry ∈ b.selected) (hfound : Rediscovered b.prepared entry entry')
    (hreplaced : ∀ source, .replace entry.path source ∈
      (b.prepared.nodeUpdates.find? entry.nodeIndex).getD [] →
        entry'.embedded = source ∧ entry'.baseline = some (.fromSource source))
    (hdecided : ∀ state, (decideEntry op (selectionKind request.selectors) entry).2 ≠
      .unresolved state) : entry'.classification = .synchronized := by
  have hentry := (h.mem_selected.1 hselected).1
  have hextracted : entry ∈ b.prepared.extracted ↔
      (decideEntry op (selectionKind request.selectors) entry).2 = .act .extract := by
    rw [h.prepared.mem_extracted, and_iff_right hselected]
  have hupdate : ∀ {u : FragmentUpdate}, u.path = entry.path →
      (u ∈ (b.prepared.nodeUpdates.find? entry.nodeIndex).getD [] ↔
        updateOf (decideEntry op (selectionKind request.selectors) entry) = some u) := by
    intro u hpath
    rw [h.update_iff hentry hpath, and_iff_right hselected]
  cases hd : (decideEntry op (selectionKind request.selectors) entry).2 with
  | unresolved state => exact absurd hd (hdecided state)
  | settled =>
    rw [h.unchanged hentry hfound fun _ action hact => by rw [hd] at hact; cases hact]
    exact decideEntry_settled hd
  | act action =>
    have hrecord : updateOf (decideEntry op (selectionKind request.selectors) entry) =
        some (.record entry.path) → entry'.embedded = entry.embedded ∧
          entry'.baseline = some (.fromSource entry.embedded) := by
      intro hu
      refine ⟨hfound.embedded fun source hmem => ?_, hfound.record ((hupdate rfl).2 hu)⟩
      rw [hupdate rfl, hu] at hmem
      cases hmem
    refine classify_eq_synchronized.2 ?_
    cases action with
    | record =>
      obtain ⟨hembedded, hbaseline⟩ := hrecord (by rw [updateOf, hd]; rfl)
      rw [hembedded, hbaseline, hfound.kept fun hmem => by rw [hextracted, hd] at hmem; cases hmem]
      exact ⟨decideEntry_record hd, rfl⟩
    | extract =>
      obtain ⟨hembedded, hbaseline⟩ := hrecord (updateOf_extract hd)
      rw [hembedded, hbaseline, hfound.extracted (hextracted.2 hd)]
      exact ⟨rfl, rfl⟩
    | embed =>
      obtain ⟨source, hsource⟩ := Option.isSome_iff_exists.1
        (h.prepared.sources _ (List.mem_map_of_mem hselected) hd)
      have hsource : entry.filesystem = some source := hsource
      have hu : updateOf (decideEntry op (selectionKind request.selectors) entry) =
          some (.replace entry.path source) := by
        rw [updateOf, hd]
        exact congrArg (Option.map (FragmentUpdate.replace entry.path)) hsource
      obtain ⟨hembedded, hbaseline⟩ := hreplaced source ((hupdate rfl).2 hu)
      rw [hembedded, hbaseline, hfound.kept fun hmem => by rw [hextracted, hd] at hmem; cases hmem]
      exact ⟨hsource, rfl⟩

/-! ## What a report promises -/

/-- What a report says of an entry holds of the entry that is found after the command. What is not
selected keeps its classification. -/
structure Honours (request : Request) (report : Report) (entry entry' : InventoryEntry) : Prop where
  path : entry'.path = entry.path
  /-- What is not reported with a state was settled or acted on. -/
  synchronized : request.Selects entry.path →
    (∀ state, .state entry.path state ∉ report.entries) → entry'.classification = .synchronized
  unresolved : request.Selects entry.path →
    ∀ state, .state entry.path state ∈ report.entries → entry'.classification.state = state
  unselected : ¬ request.Selects entry.path → entry'.classification = entry.classification

/-- A command with this report, from the state `s` to the state `t`, synchronized its fragments. -/
structure Synchronizes (W : Workspace fs access paths) (request : Request) (op : Operation)
    (report : Report) (s t : σ) : Prop where
  again : ∃ inventory inventory', W.Shows (W.view s) inventory ∧ W.Shows (W.view t) inventory' ∧
    List.Forall₂ (Honours request report) inventory.entries inventory'.entries ∧
    (report.exit = .synchronized ↔ ∀ entry ∈ chosen request.selectors inventory'.entries,
      entry.classification = .synchronized)
  /-- The same command, if it is not forced, does not get beyond discovery. -/
  idle : op.forcedAction = none → (executeWithAccess fs access request t).2 =
    (discoverRequest fs access request t).2

/-- No text that begins with LF is to be embedded behind a CR. -/
def Seamless (W : Workspace fs access paths) (request : Request) (op : Operation) (s : σ) : Prop :=
  ∀ inventory document, W.Shows (W.view s) inventory →
    Document.parse 1 inventory.documentBytes = .ok document →
    ∀ entry ∈ chosen request.selectors inventory.entries,
      (decideEntry op (selectionKind request.selectors) entry).2 = .act .embed →
      ∀ source, entry.filesystem = some source → ¬ LosesLf document.sources entry.path source

/-- A state that is reported is the one of an unresolved entry. The paths of the entries are
different, so the line belongs to this one. -/
theorem Ran.mem_report (h : Ran W request op s b t) {entry : InventoryEntry}
    (hentry : entry ∈ b.inventory.entries) {state : State} :
    .state entry.path state ∈ b.report.entries ↔ entry ∈ b.selected ∧
      (decideEntry op (selectionKind request.selectors) entry).2 = .unresolved state := by
  rw [show b.report.entries = b.prepared.reportEntries from rfl, h.prepared.report,
    List.mem_filterMap]
  refine ⟨fun hmem => ?_, fun hmem => ?_⟩
  · obtain ⟨d, hd, hreport⟩ := hmem
    obtain ⟨entry₁, hselected, rfl⟩ := List.mem_map.1 hd
    obtain rfl := h.order.path_inj (h.mem_selected.1 hselected).1 hentry (reportOf_path hreport).symm
    refine ⟨hselected, ?_⟩
    generalize decideEntry op (selectionKind request.selectors) entry₁ = d at hreport
    obtain ⟨e, decision⟩ := d
    cases decision with
    | settled | act action => cases hreport
    | unresolved state' =>
      obtain ⟨-, rfl⟩ := ReportEntry.state.inj (Option.some.inj hreport)
      rfl
  · refine ⟨_, List.mem_map_of_mem hmem.1, ?_⟩
    rw [reportOf, hmem.2]
    rfl

/-- The exit state tells whether something is unresolved. The attention is that of the prepared
batch. -/
theorem Ran.exit_eq (h : Ran W request op s b t) : b.report.exit = .synchronized ↔
    ∀ entry ∈ b.selected, ∀ state,
      (decideEntry op (selectionKind request.selectors) entry).2 ≠ .unresolved state := by
  have hexit : b.report.exit = .synchronized ↔ ¬ b.prepared.attention = true := by
    rw [Batch.report, exitState]
    cases b.prepared.attention <;> simp
  rw [hexit, h.prepared.attention, not_exists]
  refine ⟨fun hnone entry hentry state hd => ?_, fun hnone d hd => ?_⟩
  · refine hnone _ ⟨List.mem_map_of_mem hentry, ?_⟩
    rw [hd]
    trivial
  · obtain ⟨hmem, hunresolved⟩ := hd
    obtain ⟨entry, hentry, rfl⟩ := List.mem_map.1 hmem
    have hdecided := hnone entry hentry
    generalize (decideEntry op (selectionKind request.selectors) entry).2 = decision at *
    cases decision with
    | settled | act action => exact hunresolved
    | unresolved state => exact hdecided state rfl

/-- A command that has nothing to act on does not get beyond discovery. There are no updates and
nothing to extract, so the document is borrowed and the commit is skipped. -/
theorem Prepares.idle {u : σ} (h : Prepares fs access request s b u)
    (hnone : ∀ entry ∈ b.selected, ∀ action,
      (decideEntry b.op (selectionKind request.selectors) entry).2 ≠ .act action) :
    (executeWithAccess fs access request s).2 = (discoverRequest fs access request s).2 := by
  obtain ⟨-, hprepared, hmaterialized⟩ := h.preparedFrom
  have hextracted : b.prepared.extracted = [] := by
    refine List.eq_nil_iff_forall_not_mem.2 fun entry hmem => ?_
    obtain ⟨hselected, hextract⟩ := hprepared.mem_extracted.1 hmem
    exact hnone entry hselected _ hextract
  have hnodes : b.prepared.nodeUpdates.entries = [] := by
    refine List.eq_nil_iff_forall_not_mem.2 fun node hmem => ?_
    have hfind := OrdMap.find?_eq_some.2 hmem
    have hupdates := hprepared.updates node.1
    rw [hfind, Option.getD_some] at hupdates
    refine hprepared.nonempty node.1 (hfind.trans (congrArg some ?_))
    rw [hupdates]
    refine List.eq_nil_iff_forall_not_mem.2 fun u hu => ?_
    obtain ⟨entry, hselected, -, hupdate⟩ := mem_updatesAt_decideEntry.1 hu
    obtain ⟨action, hact⟩ := updateOf_acts hupdate
    exact hnone entry hselected action hact
  have houtput : b.output = none := by
    obtain ⟨document, -, hmaterialized⟩ := Except.bind_eq_ok.1 hmaterialized
    rw [hnodes] at hmaterialized
    exact (Except.ok.inj hmaterialized).symm
  rw [h.discoverRequest_eq, executeWithAccess, h.executeUsing_eq, hextracted, houtput]
  rfl

/-- What the entries are that are found after a command, if nothing is lost. An entry that was acted
on is synchronized, and one that was left alone is what it was. -/
theorem Ran.found_again (h : Ran W request op s b t) (hseamless : Seamless W request op s)
    {inventory : Inventory δ} (hshows : W.Shows (W.view t) inventory) :
    List.Forall₂ (fun entry entry' => entry ∈ b.inventory.entries ∧ entry'.path = entry.path ∧
      (entry ∈ b.selected → (∀ state, (decideEntry op (selectionKind request.selectors) entry).2 ≠
        .unresolved state) → entry'.classification = .synchronized) ∧
      ((entry ∈ b.selected → ∀ action, (decideEntry op (selectionKind request.selectors) entry).2 ≠
        .act action) → entry' = entry)) b.inventory.entries inventory.entries := by
  obtain ⟨-, document, hparse, hvalid, haligned⟩ := h.reread hshows
  obtain ⟨-, hrediscovered⟩ := h.rediscovered hshows
  have hboth := (List.forall₂_and_left _ _).2
    ⟨fun entry hentry => hentry, forall₂_and hrediscovered haligned⟩
  refine hboth.imp fun entry entry' hfound => ?_
  obtain ⟨hentry, hfound, d, d', hrereads, hisEntry, hisEntry'⟩ := hfound
  refine ⟨hentry, hfound.path, fun hselected hdecided => ?_, h.unchanged hentry hfound⟩
  refine h.synchronized hselected hfound (fun source hu => ?_) hdecided
  have hupdate := ((h.update_iff hentry rfl).1 hu).2
  obtain ⟨hembed, hfile⟩ := updateOf_eq_replace hupdate
  rw [h.selected] at hselected
  have hkeeps := hseamless _ _ h.shows_ hparse entry hselected hembed source hfile
  rw [hisEntry.nodeIndex, hisEntry.path] at hu
  rw [hisEntry.path] at hkeeps
  rw [hisEntry'.embedded, hisEntry'.baseline]
  exact (hrereads.replaced hvalid hu).2 hkeeps

/-- A command that returned has synchronized its fragments exactly when nothing is lost. From right
to left the entries are found again as they should be, and from left to right a lost LF makes the
embedded source differ from the file. -/
theorem Ran.synchronizes_iff (h : Ran W request op s b t)
    (hpaths : resolvePaths request.cwd request.document request.sourceRoot = .ok paths)
    (hmode : request.mode = .mutate op) :
    Synchronizes W request op b.report s t ↔ Seamless W request op s := by
  constructor
  case mpr =>
    intro hseamless
    obtain ⟨inventory, hshows⟩ := h.shows_again
    have hfound := h.found_again hseamless hshows
    refine ⟨⟨b.inventory, inventory, h.shows_, hshows, hfound.imp ?_, ?_⟩, fun hop => ?_⟩
    · intro entry entry' hentry
      obtain ⟨hmem, hpath, hacted, hsame⟩ := hentry
      refine ⟨hpath, fun hselects hno => ?_, fun hselects state hstate => ?_, fun hnot => ?_⟩
      · have hselected := h.mem_selected.2 ⟨hmem, hselects⟩
        exact hacted hselected fun state hd => hno state ((h.mem_report hmem).2 ⟨hselected, hd⟩)
      · obtain ⟨-, hd⟩ := (h.mem_report hmem).1 hstate
        rw [hsame fun _ action hact => by rw [hd] at hact; cases hact]
        exact (decideEntry_unresolved hd).1
      · rw [hsame fun hselected => absurd (h.mem_selected.1 hselected).2 hnot]
    · rw [h.exit_eq]
      refine ⟨fun hnone entry' hentry' => ?_, fun hall entry hselected state hd => ?_⟩
      · obtain ⟨hmem', hselects⟩ := mem_chosen.1 hentry'
        obtain ⟨entry, -, hmem, hpath, hacted, -⟩ := exists_left_of_forall₂ hfound hmem'
        have hselected := h.mem_selected.2 ⟨hmem, hpath ▸ hselects⟩
        exact hacted hselected (hnone entry hselected)
      · obtain ⟨hmem, hselects⟩ := h.mem_selected.1 hselected
        obtain ⟨entry', hmem', -, -, -, hsame⟩ := exists_right_of_forall₂ hfound hmem
        obtain rfl := hsame fun _ action hact => by rw [hd] at hact; cases hact
        exact (decideEntry_unresolved hd).2 (hall entry' (mem_chosen.2 ⟨hmem', hselects⟩))
    · by_cases hprepares : ∃ b₂ u₂, Prepares fs access request t b₂ u₂
      · obtain ⟨b₂, u₂, h₂⟩ := hprepares
        obtain rfl : b₂.paths = paths := Except.ok.inj (h₂.paths.symm.trans hpaths)
        obtain rfl : b₂.op = op := Mode.mutate.inj (h₂.mode.symm.trans hmode)
        obtain ⟨-, hselected₂, -, -⟩ := h₂.selected_sublist
        refine h₂.idle fun entry₂ hentry₂ action hact => ?_
        rw [hselected₂, (hshows.unique (h₂.shows W).2).2] at hentry₂
        obtain ⟨hmem₂, hselects⟩ := mem_chosen.1 hentry₂
        obtain ⟨entry, -, hmem, hpath, hacted, hsame⟩ := exists_left_of_forall₂ hfound hmem₂
        have hselected := h.mem_selected.2 ⟨hmem, hpath ▸ hselects⟩
        by_cases hdecided : ∃ state,
          (decideEntry b₂.op (selectionKind request.selectors) entry).2 = .unresolved state
        · obtain ⟨state, hd⟩ := hdecided
          have heq := hsame fun _ action hact => by rw [hd] at hact; cases hact
          rw [heq, hd] at hact
          cases hact
        · rw [decideEntry_synchronized hop (hacted hselected (not_exists.1 hdecided))] at hact
          cases hact
      · exact (executeUsing_discovers (realFilesystem fs) hprepares).1
  case mp =>
    intro hsync inventory document hshows hparse entry hentry hembed source hfile hloses
    obtain ⟨inventory₁, inventory', hshows₁, hshows', hhonours, -⟩ := hsync.again
    obtain ⟨hbytes, hentries⟩ := h.shows_.unique hshows
    rw [(h.shows_.unique hshows₁).2] at hhonours
    rw [hentries, ← h.selected] at hentry
    rw [hbytes] at hparse
    obtain ⟨-, document', hparse', hvalid, haligned⟩ := h.reread hshows'
    obtain rfl := Except.ok.inj (hparse.symm.trans hparse')
    obtain ⟨-, hrediscovered⟩ := h.rediscovered hshows'
    obtain ⟨hmem, hselects⟩ := h.mem_selected.1 hentry
    obtain ⟨entry', -, hpromise, hfound, d, d', hrereads, hisEntry, hisEntry'⟩ :=
      exists_right_of_forall₂ (forall₂_and hhonours (forall₂_and hrediscovered haligned)) hmem
    have hno : ∀ state, .state entry.path state ∉ b.report.entries := fun state hstate => by
      rw [((h.mem_report hmem).1 hstate).2] at hembed
      cases hembed
    have hsame := (classify_eq_synchronized.1 (hpromise.synchronized hselects hno)).1
    have hu : .replace entry.path source ∈
        (b.prepared.nodeUpdates.find? entry.nodeIndex).getD [] := by
      refine (h.update_iff hmem rfl).2 ⟨hentry, ?_⟩
      rw [updateOf, hembed]
      exact congrArg (Option.map (FragmentUpdate.replace entry.path)) hfile
    have hkept := hfound.kept fun hextracted => by
      have hextract := (h.prepared.mem_extracted.1 hextracted).2
      rw [hembed] at hextract
      cases hextract
    rw [hkept, hfile, hisEntry'.embedded] at hsame
    rw [hisEntry.nodeIndex, hisEntry.path] at hu
    rw [hisEntry.path] at hloses
    have hlost := (hrereads.replaced hvalid hu).1 hloses
    rw [Option.some.inj hsame] at hlost
    exact List.cons_ne_self _ _ hlost.symm

/-- A mutating command that returned has left its fragments synchronized, and has nothing left to
write, exactly when no text that begins with LF was embedded behind a CR. The condition is about the
state before the command: which fragments it embeds, what their files begin with, and how their
opening lines end. -/
theorem executeWithAccess_synchronizes_iff
    (hpaths : resolvePaths request.cwd request.document request.sourceRoot = .ok paths)
    (hmode : request.mode = .mutate op) (hseparate : W.Separate (W.targets (W.view s)))
    {report : Report} (hrun : executeWithAccess fs access request s = (.ok report, t)) :
    Synchronizes W request op report s t ↔ Seamless W request op s := by
  obtain ⟨b, h, rfl⟩ := exists_ran hpaths hmode hseparate hrun
  exact h.synchronizes_iff hpaths hmode

end

/-! ## A sample -/

/-- A filesystem with a document and a file of one LF. -/
def embedTree (bytes : Bytes) : Tree :=
  ((sampleTree.add [['p']] .file (by decide) rfl).setContent [['p']] [10]).setContent
    [sampleDocumentName] bytes

/-- The forced embedding of a fragment. -/
def embedRequest : Request :=
  { sampleRequest with selectors := [samplePath], mode := .mutate (.embed true) }

/-- A document with a fragment without text, whose opening line ends with CR. -/
def crBuffer : Bytes :=
  sampleBuffer.take 84 ++ [15, 0, 0, 0] ++ encode (Fragment.emptyFragment ['\r']) ++ [0]

/-- Embeds the file in the document. -/
def embedSample (bytes : Bytes) :
    Except (PolicyFailure (EngineAccessFailure Empty) Error) Report × Tree :=
  @executeWithAccess lfDigest _ _ _ _ (treeFilesystem []) AccessPolicy.direct embedRequest
    (embedTree bytes)

/-- The file of a fragment whose opening line ends with LF is embedded. So the LF in front of its
text is read as a line of its own, and nothing is lost. -/
theorem executeWithAccess_synchronizes_sample : ∃ report,
    (embedSample fragmentBuffer).1 = .ok report ∧
    (@Synchronizes _ _ _ _ (treeFilesystem []) AccessPolicy.direct sampleResolved lfDigest
      sampleWorkspace embedRequest (.embed true) report (embedTree fragmentBuffer)
      (embedSample fragmentBuffer).2 ↔
    @Seamless _ _ _ _ (treeFilesystem []) AccessPolicy.direct sampleResolved lfDigest
      sampleWorkspace embedRequest (.embed true) (embedTree fragmentBuffer)) := by
  obtain ⟨report, hrun⟩ := @exists_of_isOk _ _ _ (embedSample fragmentBuffer) (by decide +kernel)
  exact ⟨report, congrArg Prod.fst hrun, @executeWithAccess_synchronizes_iff _ _ _ _ _ _ _ lfDigest
    sampleWorkspace embedRequest (.embed true) _ _ rfl rfl
    (treeWorkspace_separate _ _ _ _ (Workspace.targets_free _ _)) report hrun⟩

/-- What was embedded behind a CR is not synchronized. The source of the sample ends its opening
line with CR, and the file holds one LF. -/
theorem not_synchronizes_behind_cr : ∃ report, (embedSample crBuffer).1 = .ok report ∧
    report.exit = .synchronized ∧
    sampleWorkspace.Separate (sampleWorkspace.targets (sampleWorkspace.view (embedTree crBuffer))) ∧
    ¬ @Synchronizes _ _ _ _ (treeFilesystem []) AccessPolicy.direct sampleResolved lfDigest
      sampleWorkspace embedRequest (.embed true) report (embedTree crBuffer)
      (embedSample crBuffer).2 := by
  let _ : Sha256 := lfDigest
  obtain ⟨report, hrun, hexit⟩ := @exists_of_any _ _ _ (embedSample crBuffer)
    (fun report => report.exit = .synchronized) (by decide +kernel)
  have hexit := of_decide_eq_true hexit
  refine ⟨report, congrArg Prod.fst hrun, hexit,
    treeWorkspace_separate _ _ _ _ (Workspace.targets_free _ _), fun hsync => ?_⟩
  -- the LF of the file is read as the end of the opening line, so there is a text to extract
  obtain ⟨inventory, hdiscovered, hfound⟩ := @exists_of_any _ _ _ (Inventory.discoverForDocument
    (treeFilesystem []) ⟨true, []⟩ ⟨true, [sampleDocumentName]⟩ AccessPolicy.direct
    (embedSample crBuffer).2) (fun inventory => inventory.entries.any fun entry =>
      entry.path = samplePath ∧ entry.classification = .extract) (by decide +kernel)
  obtain ⟨entry, hentry, hdecided⟩ := List.any_eq_true.1 hfound
  obtain ⟨hpath, hextract⟩ := of_decide_eq_true hdecided
  obtain ⟨-, hshows⟩ := (discoverForDocument_observes sampleWorkspace).eq_ok rfl hdiscovered
  obtain ⟨-, inventory', -, hshows', -, hagain⟩ := hsync.again
  rw [← (hshows'.unique hshows).2] at hagain
  have hselected : entry ∈ chosen embedRequest.selectors inventory.entries :=
    mem_chosen.2 ⟨hentry, .inr (by rw [hpath]; exact List.mem_singleton_self _)⟩
  have hsynchronized := hagain.1 hexit entry hselected
  rw [hextract] at hsynchronized
  cases hsynchronized

end Zwirn.Sync
