import Zwirn.Lib.Transition
import Zwirn.Sync.LinkDisk
import Zwirn.Sync.Synchronized

/-!
# Commands one behind the other

What a command that returned has made of an entry is one of two things (`Becomes`): the entry is as
it was, or a text has arrived (`Arrived`): it is in the file, its hash is in the closing marker, and
it is the embedded text. Only a text that begins with LF can arrive without it, and only behind a
marker line that ends in a lone CR (`LostLf`): there the LF is the second half of the line end. From
this follows what whole runs of commands keep. The fragments of the document stay the same, whatever
the commands are (`commands_keep_fragments`), and a command that is repeated has nothing left to
write after the second time (`executeWithAccess_settles`).
-/

namespace Zwirn.Sync

open Lib Fragment Adls

/-! ## What a command makes of an entry -/

/-- The text that an action puts on both sides. -/
def InventoryEntry.transferred (entry : InventoryEntry) : Action → Option CanonicalSource
  | .embed => entry.filesystem
  | .record | .extract => some entry.embedded

section
variable [Sha256]

/-- The command acts on the entry. -/
def Request.Acts (request : Request) (op : Operation) (entry : InventoryEntry) (action : Action) :
    Prop :=
  request.Selects entry.path ∧
    (decideEntry op (selectionKind request.selectors) entry).2 = .act action

/-- The entry has the text without the LF that it begins with, and in the document this LF is the
second half of the CR LF that ends the marker line in front of the fragment. So the document holds
the whole text right behind that CR. -/
structure LostLf (bytes : Bytes) (text : CanonicalSource) (entry' : InventoryEntry) : Prop where
  rest : text.value = '\n' :: entry'.embedded.value
  behind : ∃ document, Document.parse 1 bytes = .ok document ∧
    BehindCrLf document.sources entry'.path

/-- The text that was transferred to an entry has arrived in the file, in the closing marker and in
the document with these bytes. An embedded text may have lost its first LF to the marker line. -/
structure Arrived (bytes : Bytes) (text : CanonicalSource) (action : Action)
    (entry' : InventoryEntry) : Prop where
  file : entry'.filesystem = some text
  hash : entry'.baseline = some (.fromSource text)
  embedded : entry'.embedded = text ∨ action = .embed ∧ LostLf bytes text entry'

/-- What a command makes of an entry, where the document then has these bytes. It is as it was, or a
text of one side has arrived in it. -/
inductive Becomes (request : Request) (op : Operation) (bytes : Bytes)
    (entry entry' : InventoryEntry) : Prop
  | kept : (∀ action, ¬ request.Acts op entry action) → entry' = entry →
      Becomes request op bytes entry entry'
  | acted {action : Action} {text : CanonicalSource} : request.Acts op entry action →
      entry.transferred action = some text → Arrived bytes text action entry' →
      Becomes request op bytes entry entry'

/-- What is replaced has the hash of its replacement. -/
theorem Rereads.replaced_hash {nodes : List SourceNode}
    {nodeUpdates : OrdMap Nat (List FragmentUpdate)} {d d' : DiscoveredFragment}
    (h : Rereads nodes nodeUpdates d d') {source : CanonicalSource}
    (hu : .replace d.path source ∈ (nodeUpdates.find? d.nodeIndex).getD []) :
    d'.baseline = some (.fromSource source) := by
  obtain ⟨n, -, p, -, -, haddressed, f, -, hd, hd'⟩ := h
  have hpath : f.view.path = d.path := hd.path.symm
  rw [FragmentView.wanted_replace haddressed.nodup hu hpath, FragmentPlace.reread] at hd'
  split at hd' <;> exact hd'.baseline

variable {σ δ φ ε : Type} {fs : FileSystem σ δ φ} {access : AccessPolicy σ ε}
  {paths : ResolvedPaths} {W : Workspace fs access paths} {request : Request} {op : Operation}
  {s t u : σ} {b : Batch δ}

/-- The entry that an action names has a text to transfer. -/
theorem Ran.exists_transferred (h : Ran W request op s b t) {entry : InventoryEntry}
    (hselected : entry ∈ b.selected) {action : Action}
    (hact : (decideEntry op (selectionKind request.selectors) entry).2 = .act action) :
    ∃ text, entry.transferred action = some text := by
  cases action with
  | record | extract => exact ⟨_, rfl⟩
  | embed =>
    exact Option.isSome_iff_exists.1 (h.prepared.sources _ (List.mem_map_of_mem hselected) hact)

/-- The update that an action is. -/
theorem Ran.update_of_act (h : Ran W request op s b t) {entry : InventoryEntry}
    (hselected : entry ∈ b.selected) {action : Action}
    (hact : (decideEntry op (selectionKind request.selectors) entry).2 = .act action)
    {text : CanonicalSource} (htext : entry.transferred action = some text) :
    (if action = .embed then FragmentUpdate.replace entry.path text else .record entry.path) ∈
      (b.prepared.nodeUpdates.find? entry.nodeIndex).getD [] := by
  have hentry := (h.mem_selected.1 hselected).1
  refine (h.update_iff hentry (by split <;> rfl)).2 ⟨hselected, ?_⟩
  rw [updateOf, hact]
  cases action with
  | record | extract => rfl
  | embed => exact congrArg (Option.map (FragmentUpdate.replace entry.path)) htext

/-- A text that an action transfers arrives. -/
theorem Ran.arrived (h : Ran W request op s b t) {entry entry' : InventoryEntry}
    (hselected : entry ∈ b.selected) {action : Action}
    (hact : (decideEntry op (selectionKind request.selectors) entry).2 = .act action)
    {text : CanonicalSource} (htext : entry.transferred action = some text)
    (hfound : Rediscovered b.prepared entry entry') {nodes : List SourceNode}
    (hvalid : ValidFragments nodes) {bytes : Bytes} {document' : Document}
    (hparse' : Document.parse 1 bytes = .ok document')
    (hnodes : List.Forall₂ (NodeUpdated b.prepared.nodeUpdates) nodes document'.sources)
    (hvalid' : ValidFragments document'.sources) {d d' : DiscoveredFragment}
    (hrereads : Rereads nodes b.prepared.nodeUpdates d d')
    {root root' : SourceRoot δ} (hd : IsEntry root d entry) (hd' : IsEntry root' d' entry') :
    Arrived bytes text action entry' := by
  have hupdate := h.update_of_act hselected hact htext
  have hextracted : entry ∈ b.prepared.extracted ↔ action = .extract := by
    rw [h.prepared.mem_extracted, and_iff_right hselected, hact, Decision.act.injEq]
  by_cases hembed : action = .embed
  · subst hembed
    rw [if_pos rfl, hd.nodeIndex, hd.path] at hupdate
    refine ⟨(hfound.kept fun hmem => by cases hextracted.1 hmem).trans htext, ?_, ?_⟩
    · rw [hd'.baseline]
      exact hrereads.replaced_hash hupdate
    · obtain ⟨hlost, hkept⟩ := hrereads.replaced hvalid hupdate
      by_cases hloses : LosesLf nodes d.path text
      · refine .inr ⟨rfl, ?_, document', hparse', ?_⟩
        · rw [hd'.embedded]
          exact hlost hloses
        · rw [hd'.path, hrereads.nodeIndex_path.2]
          exact hloses.behindCrLf hnodes hvalid hvalid' hrereads hupdate
      · exact .inl (hd'.embedded.trans (hkept hloses).1)
  · rw [if_neg hembed] at hupdate
    have hentry := (h.mem_selected.1 hselected).1
    have htransferred : text = entry.embedded := by
      cases action with
      | record | extract => exact (Option.some.inj htext).symm
      | embed => exact absurd rfl hembed
    subst htransferred
    have hembedded : entry'.embedded = entry.embedded := hfound.embedded fun source hmem => by
      have hreplace := ((h.update_iff hentry rfl).1 hmem).2
      rw [((h.update_iff hentry rfl).1 hupdate).2] at hreplace
      cases hreplace
    refine ⟨?_, hfound.record hupdate, .inl hembedded⟩
    cases action with
    | embed => exact absurd rfl hembed
    | extract => exact hfound.extracted (hextracted.2 rfl)
    | record =>
      rw [hfound.kept fun hmem => by cases hextracted.1 hmem]
      exact decideEntry_record hact

/-- What a command that returned makes of the entries. -/
theorem Ran.becomes (h : Ran W request op s b t) {inventory : Inventory δ}
    (hshows : W.Shows (W.view t) inventory) :
    List.Forall₂ (fun entry entry' => Rediscovered b.prepared entry entry' ∧
      Becomes request op inventory.documentBytes entry entry')
        b.inventory.entries inventory.entries := by
  obtain ⟨hbytes, document, hparse, hvalid, haligned⟩ := h.reread hshows
  obtain ⟨document', hparse', hnodes, hvalid'⟩ := h.updated hparse
  rw [← hbytes] at hparse'
  obtain ⟨-, hrediscovered⟩ := h.rediscovered hshows
  have hboth := (List.forall₂_and_left _ _).2
    ⟨fun entry hentry => hentry, forall₂_and hrediscovered haligned⟩
  refine hboth.imp fun entry entry' hfound => ?_
  obtain ⟨hentry, hfound, d, d', hrereads, hd, hd'⟩ := hfound
  refine ⟨hfound, ?_⟩
  by_cases hacts : ∃ action, request.Acts op entry action
  · obtain ⟨action, hselects, hact⟩ := hacts
    have hselected := h.mem_selected.2 ⟨hentry, hselects⟩
    obtain ⟨text, htext⟩ := h.exists_transferred hselected hact
    exact .acted ⟨hselects, hact⟩ htext
      (h.arrived hselected hact htext hfound hvalid hparse' hnodes hvalid' hrereads hd hd')
  · rw [not_exists] at hacts
    exact .kept hacts (h.unchanged hentry hfound fun hselected action hact =>
      hacts action ⟨(h.mem_selected.1 hselected).2, hact⟩)

/-! ## Runs of commands -/

/-- A command that returned had a batch, and a forced one a batch of conflicts. -/
theorem exists_ran_forced
    (hpaths : resolvePaths request.cwd request.document request.sourceRoot = .ok paths)
    (hmode : request.mode = .mutate op) (hseparate : W.Separate (W.targets (W.view s)))
    {report : Report} (hrun : executeWithAccess fs access request s = (.ok report, t)) :
    ∃ b, Ran W request op s b t ∧ report = b.report ∧
      ForcedOnConflicts op (selectionKind request.selectors) b.selected := by
  obtain ⟨b, h, hreport⟩ := exists_ran hpaths hmode hseparate hrun
  refine ⟨b, h, hreport, ?_⟩
  obtain ⟨b', u, h', rfl⟩ := exists_prepares hmode hrun
  obtain rfl : b'.paths = paths := Except.ok.inj (h'.paths.symm.trans hpaths)
  obtain ⟨hforced, -, -⟩ := h'.preparedFrom
  obtain ⟨-, hselected, -, -⟩ := h'.selected_sublist
  rwa [h.selected, (h'.shows W).2.unique h.shows_ |>.2, ← hselected]

/-- What commands keep of an entry. Its place is fixed, and it stays adopted, present and settled
once it is. -/
structure Follows (entry entry' : InventoryEntry) : Prop where
  nodeIndex : entry'.nodeIndex = entry.nodeIndex
  path : entry'.path = entry.path
  target : entry'.target = entry.target
  adopted : entry.baseline ≠ none → entry'.baseline ≠ none
  present : entry.filesystem ≠ none → entry'.filesystem ≠ none
  settled : entry.classification = .synchronized → entry' = entry

/-- What follows an entry that follows another one follows that one. -/
theorem Follows.trans {entry entry' entry'' : InventoryEntry} (h : Follows entry entry')
    (h' : Follows entry' entry'') : Follows entry entry'' where
  nodeIndex := h'.nodeIndex.trans h.nodeIndex
  path := h'.path.trans h.path
  target := h'.target.trans h.target
  adopted hadopted := h'.adopted (h.adopted hadopted)
  present hpresent := h'.present (h.present hpresent)
  settled hsettled := by
    have heq := h.settled hsettled
    rw [h'.settled (heq ▸ hsettled), heq]

/-- No command acts on what is synchronized. -/
theorem Request.Acts.not_synchronized {entry : InventoryEntry} {action : Action}
    (h : request.Acts op entry action)
    (hforced : op.forcedAction ≠ none → entry.classification.IsConflict) :
    entry.classification ≠ .synchronized := by
  intro hsynchronized
  cases hop : op.forcedAction with
  | none =>
    have hdecided := h.2
    rw [decideEntry_synchronized hop hsynchronized] at hdecided
    cases hdecided
  | some action' =>
    rcases hforced (by rw [hop]; simp) with hconflict | hconflict <;>
      (rw [hconflict] at hsynchronized; cases hsynchronized)

/-- What a command makes of an entry follows it. The file and the hash are there when a text has
arrived, and what is settled is not acted on. -/
theorem Becomes.follows {bytes : Bytes} {entry entry' : InventoryEntry}
    (h : Becomes request op bytes entry entry') {prepared : Prepared}
    (hfound : Rediscovered prepared entry entry')
    (hforced : request.Selects entry.path → op.forcedAction ≠ none →
      entry.classification.IsConflict) : Follows entry entry' := by
  cases h with
  | kept _ heq =>
    subst heq
    exact ⟨rfl, rfl, rfl, id, id, fun _ => rfl⟩
  | acted hacts _ harrived =>
    refine ⟨hfound.nodeIndex, hfound.path, hfound.target, fun _ => ?_, fun _ => ?_, ?_⟩
    · rw [harrived.hash]; simp
    · rw [harrived.file]; simp
    · exact fun hsettled => absurd hsettled (hacts.not_synchronized (hforced hacts.1))

/-- The node has the fragments it had. -/
structure SameNode (n n' : SourceNode) : Prop where
  index : n'.handle.index = n.handle.index
  kind : n'.kind = n.kind
  fragments : ∃ p p', Parses n p ∧ Parses n' p' ∧
    p'.view.map FragmentView.path = p.view.map FragmentView.path

/-- What commands keep of an inventory. -/
structure SameFragments (inventory inventory' : Inventory δ) : Prop where
  entries : List.Forall₂ Follows inventory.entries inventory'.entries
  nodes : ∃ document document', Document.parse 1 inventory.documentBytes = .ok document ∧
    Document.parse 1 inventory'.documentBytes = .ok document' ∧
    List.Forall₂ SameNode document.sources document'.sources

omit [Sha256] in
/-- Nodes that are the same up to their text are so in a row. -/
theorem SameNode.trans {n n' n'' : SourceNode} (h : SameNode n n') (h' : SameNode n' n'') :
    SameNode n n'' := by
  obtain ⟨p, p', hp, hp', hpaths⟩ := h.fragments
  obtain ⟨p₁, p'', hp₁, hp'', hpaths'⟩ := h'.fragments
  obtain rfl := Except.ok.inj (hp'.symm.trans hp₁)
  exact ⟨h'.index.trans h.index, h'.kind.trans h.kind, p, p'', hp, hp'', hpaths'.trans hpaths⟩

/-- So are the fragments of three inventories. -/
theorem SameFragments.trans {inventory inventory' inventory'' : Inventory δ}
    (h : SameFragments inventory inventory') (h' : SameFragments inventory' inventory'') :
    SameFragments inventory inventory'' := by
  obtain ⟨document, document', hparse, hparse', hnodes⟩ := h.nodes
  obtain ⟨document₁, document'', hparse₁, hparse'', hnodes'⟩ := h'.nodes
  obtain rfl := Except.ok.inj (hparse'.symm.trans hparse₁)
  exact ⟨forall₂_trans (fun _ _ _ h h' => h.trans h') h.entries h'.entries, document, document'',
    hparse, hparse'', forall₂_trans (fun _ _ _ h h' => h.trans h') hnodes hnodes'⟩

/-- A command that returned keeps the fragments. The entries follow those before, and the nodes keep
the paths of their fragments. -/
theorem Ran.sameFragments (h : Ran W request op s b t)
    (hforced : ForcedOnConflicts op (selectionKind request.selectors) b.selected)
    {inventory : Inventory δ} (hshows : W.Shows (W.view t) inventory) :
    SameFragments b.inventory inventory := by
  have hbecomes := (List.forall₂_and_left _ _).2 ⟨fun entry hentry => hentry, h.becomes hshows⟩
  refine ⟨hbecomes.imp fun entry entry' hentry => ?_, ?_⟩
  · obtain ⟨hmem, hfound, hbecomes⟩ := hentry
    exact hbecomes.follows hfound fun hselects hop =>
      (hforced hop).2.2 entry (h.mem_selected.2 ⟨hmem, hselects⟩)
  · obtain ⟨-, -, -, document, ds, hparse, hds, -⟩ := h.shows_.listed
    obtain ⟨-, -, -, document', ds', hparse', hds', -⟩ := hshows.listed
    obtain ⟨document'', hparse'', hupdated, -⟩ := h.updated hparse
    rw [(h.rediscovered hshows).1] at hparse' ⊢
    obtain rfl := Except.ok.inj (hparse'.symm.trans hparse'')
    refine ⟨document, document', hparse, hparse', forall₂_of_mem_right hupdated ?_⟩
    intro n n' hn' hnode
    obtain ⟨p', hp', hnodup⟩ := hds'.valid.node hn'
    obtain ⟨hindex, hkind, p, p₁, hp, hp₁, hall⟩ := nodeKept_of_updated hnode hp' hnodup
    exact ⟨hindex, hkind, p, p₁, hp, hp₁, map_eq_of_forall₂ hall.flip fun _ _ h => h.path⟩

/-- An inventory of a disk has its own fragments. Its nodes parse, which is what there is to
prove. -/
theorem Workspace.Shows.sameFragments_refl {d : Disk φ} {inventory : Inventory δ}
    (h : W.Shows d inventory) : SameFragments inventory inventory := by
  obtain ⟨-, -, -, document, ds, hparse, hds, -⟩ := h.listed
  refine ⟨List.forall₂_same.2 fun _ _ => ⟨rfl, rfl, rfl, id, id, fun _ => rfl⟩, document, document,
    hparse, hparse, List.forall₂_same.2 fun n hn => ?_⟩
  obtain ⟨p, hp, -⟩ := hds.valid.node hn
  exact ⟨rfl, rfl, p, p, hp, hp, rfl⟩

/-- A mutating command on the document that returned. -/
inductive Returns (W : Workspace fs access paths) : σ → Request × Report → σ → Prop
  | returned {request : Request} {op : Operation} {report : Report} {s t : σ} :
      resolvePaths request.cwd request.document request.sourceRoot = .ok paths →
      request.mode = .mutate op → executeWithAccess fs access request s = (.ok report, t) →
      Returns W s (request, report) t

/-- No run of mutating commands adds, drops, moves or renames a fragment, forgets a hash, deletes a
file, or touches what is synchronized, as long as the targets are separate and each command returns.
The commands may be of any kind and on any selection, and the induction is on their run. -/
theorem commands_keep_fragments {ls : List (Request × Report)} (h : Trace (Returns W) s ls t)
    (hseparate : W.Separate (W.targets (W.view s))) {inventory : Inventory δ}
    (hshows : W.Shows (W.view s) inventory) :
    ∃ inventory', W.Shows (W.view t) inventory' ∧ SameFragments inventory inventory' := by
  induction h generalizing inventory with
  | nil => exact ⟨inventory, hshows, hshows.sameFragments_refl⟩
  | cons hstep _ ih =>
    obtain ⟨hpaths, hmode, hrun⟩ := hstep
    obtain ⟨b, h, -, hforced⟩ := exists_ran_forced hpaths hmode hseparate hrun
    obtain ⟨inventory', hshows'⟩ := h.shows_again
    obtain ⟨inventory'', hshows'', hsame⟩ := ih (hseparate.mono h.targets_subset) hshows'
    refine ⟨inventory'', hshows'', .trans ?_ hsame⟩
    obtain ⟨hbytes, hentries⟩ := hshows.unique h.shows_
    have hfirst := h.sameFragments hforced hshows'
    exact ⟨hentries ▸ hfirst.entries, hbytes ▸ hfirst.nodes⟩

/-! ## Repeated commands -/

/-- There is nothing that the command would act on. -/
def Workspace.Quiet (W : Workspace fs access paths) (request : Request) (op : Operation)
    (d : Disk φ) : Prop :=
  ∀ inventory, W.Shows d inventory → ∀ entry ∈ inventory.entries, ∀ action,
    ¬ request.Acts op entry action

/-- Where there is nothing to act on, a command changes nothing. It is not prepared, or it is
prepared with nothing to write. -/
theorem Workspace.Quiet.run (h : W.Quiet request op (W.view s))
    (hpaths : resolvePaths request.cwd request.document request.sourceRoot = .ok paths)
    (hmode : request.mode = .mutate op) :
    W.view (executeWithAccess fs access request s).2 = W.view s := by
  by_cases hprepares : ∃ b u, Prepares fs access request s b u
  case neg => exact executeWithAccess_idle W hpaths hprepares
  obtain ⟨b, u, hb⟩ := hprepares
  obtain rfl : b.paths = paths := Except.ok.inj (hb.paths.symm.trans hpaths)
  obtain rfl : b.op = op := Mode.mutate.inj (hb.mode.symm.trans hmode)
  obtain ⟨hview, hshows⟩ := hb.shows W
  obtain ⟨-, hselected, -, -⟩ := hb.selected_sublist
  rw [hb.idle fun entry hentry action hact => ?_, hb.discoverRequest_eq]
  · exact hview
  · rw [hselected, mem_chosen] at hentry
    exact h _ hshows entry hentry.1 action ⟨hentry.2, hact⟩

/-- What a command reports depends only on what the disk shows. -/
theorem Ran.report_eq (h : Ran W request op s b t) {b' : Batch δ} {s' t' : σ}
    (h' : Ran W request op s' b' t') (hview : W.view s' = W.view s) : b'.report = b.report := by
  have hshows := h'.shows_
  rw [hview] at hshows
  have hselected : b'.selected = b.selected := by
    rw [h.selected, h'.selected, (h.shows_.unique hshows).2]
  rw [Batch.report, Batch.report, h.prepared.report, h'.prepared.report, hselected]
  congr 2
  rw [Bool.eq_iff_iff, h.prepared.attention, h'.prepared.attention, hselected]

/-- The state of a classification is reported. -/
def ReportEntry.IsState : ReportEntry → Prop
  | .state _ _ => True
  | .action _ _ => False

/-- Where there is nothing to act on, states are reported only. A line with an action would be one
of an entry that is acted on. -/
theorem Ran.report_states (h : Ran W request op s b t) (hquiet : W.Quiet request op (W.view s)) :
    ∀ e ∈ b.report.entries, e.IsState := by
  intro e he
  rw [Batch.report, h.prepared.report, List.mem_filterMap] at he
  obtain ⟨d, hd, hreport⟩ := he
  obtain ⟨entry, hentry, rfl⟩ := List.mem_map.1 hd
  obtain ⟨hmem, hselects⟩ := h.mem_selected.1 hentry
  have hnone := hquiet _ h.shows_ entry hmem
  rw [reportOf] at hreport
  cases hd : (decideEntry op (selectionKind request.selectors) entry).2 with
  | settled => rw [hd] at hreport; cases hreport
  | unresolved state => rw [hd] at hreport; cases hreport; trivial
  | act action => exact absurd ⟨hselects, hd⟩ (hnone action)

/-- A text that arrived is not embedded again. The file has the stored hash, so it is not the side
that has changed. -/
theorem Arrived.not_embed {bytes : Bytes} {text : CanonicalSource} {action : Action}
    {entry : InventoryEntry} (h : Arrived bytes text action entry) (hop : op.forcedAction = none) :
    ¬ request.Acts op entry .embed := by
  intro hacts
  have hc := classified entry.embedded entry.baseline entry.filesystem
  have hd := decided op (selectionKind request.selectors) entry.classification
  rw [show decision op _ entry.classification = .act .embed from hacts.2] at hd
  rw [show classify entry.embedded entry.baseline entry.filesystem = entry.classification from rfl,
    h.file, h.hash] at hc
  generalize entry.classification = c at hc hd
  cases hd with
  | forced hforced => rw [hop] at hforced; cases hforced
  | embed _ =>
    generalize hhash : BaselineHash.fromSource text = hash at hc
    cases hc with
    | embed hne hhash' => exact hhash' hhash

/-- A text that arrived on both sides is synchronized. -/
theorem Arrived.synchronized {bytes : Bytes} {text : CanonicalSource} {action : Action}
    {entry : InventoryEntry} (h : Arrived bytes text action entry) (hne : action ≠ .embed) :
    entry.classification = .synchronized := by
  have hembedded : entry.embedded = text := h.embedded.resolve_right fun hlost => hne hlost.1
  exact classify_eq_synchronized.2 ⟨by rw [h.file, hembedded], by rw [h.hash, hembedded]⟩

/-- After a command that is not forced there is nothing to embed. -/
theorem Ran.not_embed (h : Ran W request op s b t) (hop : op.forcedAction = none)
    {inventory : Inventory δ} (hshows : W.Shows (W.view t) inventory) :
    ∀ entry ∈ inventory.entries, ¬ request.Acts op entry .embed := by
  intro entry' hentry'
  obtain ⟨entry, -, -, hbecomes⟩ := exists_left_of_forall₂ (h.becomes hshows) hentry'
  cases hbecomes with
  | kept hnone heq => exact heq ▸ hnone .embed
  | acted _ _ harrived => exact harrived.not_embed hop

/-- After a command that had nothing to embed, and is not forced, there is nothing to act on. All
that was extracted or recorded is synchronized, since only an embedded text can lose its LF. -/
theorem Ran.quiet (h : Ran W request op s b t) (hop : op.forcedAction = none)
    (hnone : ∀ entry ∈ b.inventory.entries, ¬ request.Acts op entry .embed) :
    W.Quiet request op (W.view t) := by
  intro inventory hshows entry' hentry' action hacts
  have hbecomes := (List.forall₂_and_left _ _).2 ⟨hnone, h.becomes hshows⟩
  obtain ⟨entry, -, hembed, -, hbecomes⟩ := exists_left_of_forall₂ hbecomes hentry'
  cases hbecomes with
  | kept hnone heq => exact hnone action (heq ▸ hacts)
  | @acted action' text hacted htext harrived =>
    have hsynchronized := harrived.synchronized fun heq => hembed (heq ▸ hacted)
    have hdecided := hacts.2
    rw [decideEntry_synchronized hop hsynchronized] at hdecided
    cases hdecided

/-- A command that changed nothing had nothing to act on. What it had acted on would be found as it
was, and no text that has just arrived is acted on again. -/
theorem Ran.quiet_of_unchanged (h : Ran W request op s b t) (hop : op.forcedAction = none)
    (hview : W.view t = W.view s) : W.Quiet request op (W.view s) := by
  intro inventory hshows entry hentry action hacts
  obtain ⟨-, hentries⟩ := h.shows_.unique hshows
  have hbecomes := h.becomes (hview.symm ▸ h.shows_)
  rw [List.forall₂_same] at hbecomes
  obtain ⟨-, hbecomes⟩ := hbecomes entry (hentries ▸ hentry)
  cases hbecomes with
  | kept hnone _ => exact hnone action hacts
  | @acted action' text hacted htext harrived =>
    rcases eq_or_ne action' .embed with rfl | hne
    · exact harrived.not_embed hop hacted
    · exact hacted.not_synchronized (fun hforced => absurd hop hforced) (harrived.synchronized hne)

/-- The states of the entries that are not synchronized. -/
def unsettled (entries : List InventoryEntry) : List ReportEntry :=
  entries.filterMap fun entry =>
    if entry.classification = .synchronized then none
    else some (.state entry.path entry.classification.state)

/-- Where there is nothing to act on, what is not synchronized is reported. A fragment without an
action is settled only if it is synchronized. -/
theorem Ran.report_unsettled (h : Ran W request op s b t) (hop : op.forcedAction = none)
    (hquiet : W.Quiet request op (W.view s)) : b.report.entries = unsettled b.selected := by
  rw [Batch.report, h.prepared.report, List.filterMap_map, unsettled]
  refine List.filterMap_congr fun entry hentry => ?_
  obtain ⟨hmem, hselects⟩ := h.mem_selected.1 hentry
  have hnone := hquiet _ h.shows_ entry hmem
  rcases eq_or_ne entry.classification .synchronized with hsynchronized | hne
  · rw [Function.comp_apply, reportOf, decideEntry_synchronized hop hsynchronized,
      if_pos hsynchronized]
  · rw [Function.comp_apply, reportOf, if_neg hne]
    have hdecided := decided op (selectionKind request.selectors) entry.classification
    rw [show decision op _ entry.classification =
      (decideEntry op (selectionKind request.selectors) entry).2 from rfl] at hdecided
    cases hd : (decideEntry op (selectionKind request.selectors) entry).2 with
    | settled =>
      rw [hd] at hdecided
      generalize entry.classification = c at hdecided hne
      cases hdecided
      exact absurd rfl hne
    | act action => exact absurd ⟨hselects, hd⟩ (hnone action)
    | unresolved state =>
      rw [hd] at hdecided
      have hstate : state = entry.classification.state := by
        generalize entry.classification = c at hdecided
        cases hdecided
        rfl
      rw [hstate]
      rfl

/-- A run of the request, and how it ends. -/
def Executes (fs : FileSystem σ δ φ) (access : AccessPolicy σ ε) (request : Request) (s : σ)
    (r : Except (PolicyFailure (EngineAccessFailure ε) Error) Report) (t : σ) : Prop :=
  executeWithAccess fs access request s = (r, t)

/-- A command that is not forced has settled when it has returned twice, where the targets are
separate. However often it is run then, and however these runs end, no file changes any more; those
that return report no action, and all of them the same. -/
theorem executeWithAccess_settles
    (hpaths : resolvePaths request.cwd request.document request.sourceRoot = .ok paths)
    (hmode : request.mode = .mutate op) (hop : op.forcedAction = none)
    (hseparate : W.Separate (W.targets (W.view s))) {report₁ report₂ : Report} {s₁ s₂ : σ}
    (hrun₁ : Executes fs access request s (.ok report₁) s₁)
    (hrun₂ : Executes fs access request s₁ (.ok report₂) s₂)
    {rs : List (Except (PolicyFailure (EngineAccessFailure ε) Error) Report)}
    (hruns : Trace (Executes fs access request) s₂ rs t) :
    W.view t = W.view s₂ ∧ (∀ report, .ok report ∈ rs → ∀ e ∈ report.entries, e.IsState) ∧
      ∀ report report', .ok report ∈ rs → .ok report' ∈ rs → report' = report := by
  obtain ⟨b₁, h₁, -⟩ := exists_ran hpaths hmode hseparate hrun₁
  have hseparate₁ := hseparate.mono h₁.targets_subset
  obtain ⟨b₂, h₂, -⟩ := exists_ran hpaths hmode hseparate₁ hrun₂
  have hseparate₂ := hseparate₁.mono h₂.targets_subset
  have hquiet := h₂.quiet hop (h₁.not_embed hop h₂.shows_)
  have hall := hruns.forall_of_closed (P := fun u => W.view u = W.view s₂)
    (Q := fun r => ∀ report, r = .ok report → ∃ u b v, Ran W request op u b v ∧
      W.view u = W.view s₂ ∧ report = b.report) rfl fun u r v hu hrun => by
    have hview := (hu ▸ hquiet).run hpaths hmode
    rw [show executeWithAccess fs access request u = (r, v) from hrun] at hview
    refine ⟨hview.trans hu, fun report hr => ?_⟩
    rw [hr] at hrun
    obtain ⟨b, h, hreport⟩ := exists_ran hpaths hmode (hu.symm ▸ hseparate₂) hrun
    exact ⟨u, b, v, h, hu, hreport⟩
  obtain ⟨hview, hreports⟩ := hall
  refine ⟨hview, fun report hmem => ?_, fun report report' hmem hmem' => ?_⟩
  · obtain ⟨u, b, v, h, hu, rfl⟩ := hreports _ hmem report rfl
    exact h.report_states (hu.symm ▸ hquiet)
  · obtain ⟨u, b, v, h, hu, rfl⟩ := hreports _ hmem report rfl
    obtain ⟨u', b', v', h', hu', rfl⟩ := hreports _ hmem' report' rfl
    exact h.report_eq h' (hu'.trans hu.symm)

end

/-! ## Samples -/

/-- What is found in a tree. -/
def discoverSample (t : Tree) :
    Except (PolicyFailure Empty InventoryError) (Inventory Location) × Tree :=
  Inventory.discoverForDocument (treeFilesystem []) ⟨true, []⟩ ⟨true, [sampleDocumentName]⟩
    AccessPolicy.direct t

/-- What a run on the sample discovers is shown by its disk. The test of the inventory is
evaluated. -/
theorem shows_of_any {t : Tree} {holds : Inventory Location → Bool}
    (h : (discoverSample t).1.toOption.any holds = true) :
    ∃ inventory, sampleWorkspace.Shows (sampleWorkspace.view t) inventory ∧
      holds inventory = true := by
  obtain ⟨inventory, hrun, hholds⟩ := exists_of_any h
  exact ⟨inventory, ((discoverForDocument_observes sampleWorkspace).eq_ok rfl hrun).2, hholds⟩

/-- The sample has no links, so any targets are separate. -/
theorem sampleTargets_separate (t : Tree) :
    sampleWorkspace.Separate (sampleWorkspace.targets (sampleWorkspace.view t)) :=
  treeWorkspace_separate _ _ _ _ (Workspace.targets_free _ _)

/-- What a command on the sample makes of a filesystem. -/
def afterPair (t : Tree) : Tree := (extractPair [samplePath, pairPath] t).2

/-- Extracts the fragments of the document to which a link leads, beneath the source root to which
one leads. -/
def extractLodged : Except (PolicyFailure (EngineAccessFailure Empty) Error) Report ×
    {t // Lodged 40 [] lodgedPaths.sourceRoot [['v'], ['s']] t} :=
  @executeWithAccess lfDigest _ _ _ _ lodgedFilesystem AccessPolicy.direct
    { sampleRequest with sourceRoot := some lodgedPaths.sourceRoot } ⟨lodgedTree, lodgedTree_lodged⟩

/-- Three fragments are extracted, one of them into a new directory. The filesystem has links in
front of the source root and of the document. -/
theorem commands_keep_fragments_sample : ∃ inventory inventory',
    lodgedWorkspace.Shows (lodgedWorkspace.view ⟨lodgedTree, lodgedTree_lodged⟩) inventory ∧
    lodgedWorkspace.Shows (lodgedWorkspace.view extractLodged.2) inventory' ∧
    @SameFragments lfDigest _ inventory inventory' := by
  let _ : Sha256 := lfDigest
  obtain ⟨report, hrun⟩ := @exists_of_isOk _ _ _ extractLodged (by decide +kernel)
  obtain ⟨b, h, -⟩ := @exists_ran _ _ _ _ _ _ _ lfDigest lodgedWorkspace
    { sampleRequest with sourceRoot := some lodgedPaths.sourceRoot } (.extract false) _ _ rfl rfl
    (lodgedWorkspace_separate _) _ hrun
  obtain ⟨inventory', hshows', hsame⟩ := @commands_keep_fragments lfDigest _ _ _ _ _ _ _
    lodgedWorkspace _ _ _ (.single (.returned rfl rfl hrun)) (lodgedWorkspace_separate _) _ h.shows_
  exact ⟨_, inventory', h.shows_, hshows', hsame⟩

/-- The extraction of two fragments is repeated. The first extraction writes both files, the second
one finds nothing to do, and so do all later ones. -/
theorem executeWithAccess_settles_sample :
    let r := (extractPair [samplePath, pairPath] (afterPair (afterPair pairTree))).1
    sampleWorkspace.view (afterPair (afterPair (afterPair pairTree))) =
      sampleWorkspace.view (afterPair (afterPair pairTree)) ∧
    (∀ report, .ok report ∈ [r] → ∀ e ∈ report.entries, e.IsState) ∧
    ∀ report report', .ok report ∈ [r] → .ok report' ∈ [r] → report' = report := by
  obtain ⟨report₁, hrun₁⟩ := @exists_of_isOk _ _ _ (extractPair [samplePath, pairPath] pairTree)
    (by decide +kernel)
  obtain ⟨report₂, hrun₂⟩ := @exists_of_isOk _ _ _
    (extractPair [samplePath, pairPath] (afterPair pairTree)) (by decide +kernel)
  exact @executeWithAccess_settles lfDigest _ _ _ _ _ _ _ sampleWorkspace
    (sampleRequest.on [samplePath, pairPath]) (.extract false) _ _ rfl rfl rfl
    (treeWorkspace_separate _ _ _ _ (Workspace.targets_free _ _)) _ _ _ _ hrun₁ hrun₂ _
    (.single Prod.mk.eta.symm)

end Zwirn.Sync
