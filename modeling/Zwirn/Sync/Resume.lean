import Zwirn.Sync.Defensive
import Zwirn.Sync.Split

/-!
# Resuming an interrupted commit

A commit that stops between two writes leaves some of what it extracts in the files, and the
document as it was (`Interrupted.standing`). The same command then finds these files
(`Standing.shows_`), has at most their hashes left to record (`decision_embedded`), and makes the
same document (`Prepares.resumes`). So it ends as it would have ended without the interruption
(`executeWithAccess_resumes`).
-/

namespace Zwirn.Sync

open Lib Fragment Adls

/-! ## Entries that were written -/

namespace InventoryEntry
variable {done entries : List InventoryEntry} {entry : InventoryEntry}

/-- The entry once the entries in `done` are in their files. -/
def after (done : List InventoryEntry) (entry : InventoryEntry) : InventoryEntry :=
  if entry ∈ done then { entry with filesystem := some entry.embedded } else entry

/-- An entry whose output was written holds the embedded source in its file. -/
theorem after_of_mem (h : entry ∈ done) :
    entry.after done = { entry with filesystem := some entry.embedded } := if_pos h

/-- The other entries are what they were. -/
theorem after_of_not_mem (h : entry ∉ done) : entry.after done = entry := if_neg h

/-- The written outputs change only what the files hold, and nothing that stands in the document. -/
@[simp] theorem after_nodeIndex : (entry.after done).nodeIndex = entry.nodeIndex := by
  unfold after
  split <;> rfl

/-- The path is kept, -/
@[simp] theorem after_path : (entry.after done).path = entry.path := by
  unfold after
  split <;> rfl

/-- the embedded source is, -/
@[simp] theorem after_embedded : (entry.after done).embedded = entry.embedded := by
  unfold after
  split <;> rfl

/-- the baseline is, -/
@[simp] theorem after_baseline : (entry.after done).baseline = entry.baseline := by
  unfold after
  split <;> rfl

/-- and so is the path by which the target is named. -/
@[simp] theorem after_target : (entry.after done).target = entry.target := by
  unfold after
  split <;> rfl

/-- The entries keep their paths, as a list. -/
theorem map_path_after : (entries.map (after done)).map path = entries.map path := by
  rw [List.map_map]
  exact List.map_congr_left fun _ _ => after_path

/-- A selection of entries that were written is written. -/
theorem chosen_after (selectors : List FragmentPath) :
    chosen selectors (entries.map (after done)) = (chosen selectors entries).map (after done) := by
  unfold chosen
  split
  · rfl
  · rw [List.filter_map]
    congr 1
    exact List.filter_congr fun entry _ => by simp

end InventoryEntry

/-- So they keep their order. -/
theorem InPathOrder.after {entries : List InventoryEntry} (h : InPathOrder entries)
    (done : List InventoryEntry) : InPathOrder (entries.map (InventoryEntry.after done)) := by
  rw [InPathOrder, InventoryEntry.map_path_after]
  exact h

/-- An entry is there after the writes when it was there before them. -/
theorem InPathOrder.mem_after {entries done : List InventoryEntry} (h : InPathOrder entries)
    {selected : List InventoryEntry} (hselected : selected ⊆ entries) {entry : InventoryEntry}
    (hentry : entry ∈ entries) :
    entry.after done ∈ selected.map (InventoryEntry.after done) ↔ entry ∈ selected := by
  refine ⟨fun hmem => ?_, List.mem_map_of_mem⟩
  obtain ⟨other, hother, heq⟩ := List.mem_map.1 hmem
  have hpath := congrArg InventoryEntry.path heq
  rw [InventoryEntry.after_path, InventoryEntry.after_path] at hpath
  rwa [← h.path_inj (hselected hother) hentry hpath]

section
variable [Sha256] {op : Operation} {selection : SelectionKind}

/-- What is left to do for a fragment whose text is in its file. Only the hash can be missing, and
then it is recorded. -/
theorem decision_embedded (hop : op.forcedAction = none) (selection : SelectionKind)
    (embedded : CanonicalSource) (baseline : Option BaselineHash) :
    decision op selection (classify embedded baseline (some embedded)) =
      if baseline = some (.fromSource embedded) then .settled else .act .record := by
  have hplan := planOne_eq_ok hop selection (classify embedded baseline (some embedded))
  cases baseline with
  | none =>
    rw [Classified.matching.unique] at hplan ⊢
    rw [if_neg (by simp)]
    exact (Except.pure_eq_ok.1 hplan).symm
  | some baseline =>
    by_cases hbaseline : BaselineHash.fromSource embedded = baseline
    · subst hbaseline
      rw [Classified.synchronized.unique] at hplan ⊢
      rw [if_pos rfl]
      exact (Except.pure_eq_ok.1 hplan).symm
    · rw [(Classified.converged hbaseline).unique] at hplan ⊢
      rw [if_neg fun heq => hbaseline (Option.some.inj heq).symm]
      exact (Except.pure_eq_ok.1 hplan).symm

/-- What is decided of an entry whose file was written. -/
theorem decideEntry_after (hop : op.forcedAction = none) {done : List InventoryEntry}
    {entry : InventoryEntry} (h : entry ∈ done) :
    (decideEntry op selection (entry.after done)).2 =
      if entry.baseline = some (.fromSource entry.embedded) then .settled else .act .record := by
  rw [InventoryEntry.after_of_mem h]
  exact decision_embedded hop selection entry.embedded entry.baseline

/-- At most its record is left of the update of an entry whose file was written. -/
theorem updateOf_after (hop : op.forcedAction = none) {done : List InventoryEntry}
    {entry : InventoryEntry} (h : entry ∈ done) :
    updateOf (decideEntry op selection (entry.after done)) =
      if entry.baseline = some (.fromSource entry.embedded) then none
      else some (.record entry.path) := by
  have hdecision := @decideEntry_after _ op selection hop done entry h
  have hpath : (decideEntry op selection (entry.after done)).1.path = entry.path :=
    InventoryEntry.after_path
  rw [updateOf, hdecision, hpath]
  split_ifs <;> rfl

/-- An extraction updates the document by a record, and not by a replacement. -/
theorem updateOf_extract {entry : InventoryEntry}
    (h : (decideEntry op selection entry).2 = .act .extract) :
    updateOf (decideEntry op selection entry) = some (.record entry.path) := by
  rw [updateOf, h]
  rfl

/-- The updates that are left are among those that there were. A fragment that was extracted is only
recorded now, which extracting it had to do as well. -/
theorem updatesAt_after_subset (hop : op.forcedAction = none) {selected done : List InventoryEntry}
    (hdone : ∀ entry ∈ done, (decideEntry op selection entry).2 = .act .extract) (nodeIndex : Nat) :
    updatesAt ((selected.map (InventoryEntry.after done)).map (decideEntry op selection)) nodeIndex ⊆
      updatesAt (selected.map (decideEntry op selection)) nodeIndex := by
  intro u hu
  obtain ⟨entry', hentry', hindex, hupdate⟩ := mem_updatesAt_decideEntry.1 hu
  obtain ⟨entry, hentry, rfl⟩ := List.mem_map.1 hentry'
  refine mem_updatesAt_decideEntry.2 ⟨entry, hentry, by simpa using hindex, ?_⟩
  by_cases hmem : entry ∈ done
  · rw [updateOf_after hop hmem] at hupdate
    rw [updateOf_extract (hdone entry hmem)]
    split at hupdate
    · cases hupdate
    · exact hupdate
  · rwa [InventoryEntry.after_of_not_mem hmem] at hupdate

/-- The updates that are left make of a fragment what all of them made of it: what is left out is a
record of the hash that the fragment has. -/
theorem wanted_after (hop : op.forcedAction = none) {entries selected done : List InventoryEntry}
    (horder : InPathOrder entries) (hselected : selected.Sublist entries)
    (hdone : ∀ entry ∈ done, (decideEntry op selection entry).2 = .act .extract) {nodeIndex : Nat}
    {f : FragmentView} (hfragment : ∀ entry ∈ entries, entry.path = f.path →
      entry.baseline = f.baseline ∧ BaselineHash.fromSource entry.embedded = .ofText f.source) :
    f.wanted (updatesAt ((selected.map (InventoryEntry.after done)).map (decideEntry op selection))
        nodeIndex) =
      f.wanted (updatesAt (selected.map (decideEntry op selection)) nodeIndex) := by
  have hsorted : InPathOrder selected := horder.sublist (hselected.map _)
  refine FragmentView.wanted_of_dropped (updatesAt_nodup hsorted nodeIndex)
    (updatesAt_nodup (hsorted.after done) nodeIndex)
    (fun u hu => updatesAt_after_subset hop hdone nodeIndex hu) fun u hu hnot hpath => ?_
  obtain ⟨entry, hentry, hindex, hupdate⟩ := mem_updatesAt_decideEntry.1 hu
  have hleft : updateOf (decideEntry op selection (entry.after done)) ≠ some u := fun heq =>
    hnot (mem_updatesAt_decideEntry.2 ⟨_, List.mem_map_of_mem hentry, by simpa using hindex, heq⟩)
  by_cases hmem : entry ∈ done
  · rw [updateOf_extract (hdone entry hmem)] at hupdate
    rw [updateOf_after hop hmem] at hleft
    obtain rfl := Option.some.inj hupdate
    obtain ⟨hbaseline, hhash⟩ := hfragment entry (hselected.subset hentry) hpath
    refine ⟨congrArg _ hpath, ?_⟩
    split at hleft
    · next heq => rw [← hbaseline, heq, hhash]
    · exact absurd rfl hleft
  · rw [InventoryEntry.after_of_not_mem hmem] at hleft
    exact absurd hupdate hleft

end

/-! ## What stands is shown -/

section
variable {σ δ φ ε : Type} {fs : FileSystem σ δ φ} {access : AccessPolicy σ ε} {paths : ResolvedPaths}
  {d d' : Disk φ} {entries done : List InventoryEntry} {i₀ : FileIdentity} {bytes : Bytes}

namespace Standing

/-- At a target is found what was there, or what was written. A file that was written holds the
embedded text, and the others hold what they held. -/
theorem finds (h : Standing d entries i₀ bytes done d') {entry : InventoryEntry}
    (hentry : entry ∈ entries) (hfound : d.Finds entry.path entry.filesystem) :
    d'.Finds entry.path (entry.after done).filesystem := by
  by_cases hmem : entry ∈ done
  · rw [InventoryEntry.after_of_mem hmem]
    have hwritten := h.written entry hmem
    cases hfile : d'.file entry.path with
    | none =>
      rw [Disk.holds_of_none hfile] at hwritten
      cases hwritten
    | some i =>
      rw [Disk.holds_of hfile] at hwritten
      exact .present (Disk.file_eq_some.1 hfile) hwritten (decode_encode _)
        (CanonicalSource.tryFrom_value _)
  · rw [InventoryEntry.after_of_not_mem hmem]
    have hkept := h.kept entry hentry hmem
    rcases hfound.holds with ⟨hnone, hfile⟩ | ⟨i, bytes, text, source, hsome, hfile, hcontent,
      htext, hsource⟩
    · rw [hnone]
      rw [Disk.holds_of_none hfile] at hkept
      cases hfile' : d'.file entry.path with
      | none => exact .absent (h.regular entry hentry hfile')
      | some j =>
        rw [Disk.holds_of hfile'] at hkept
        exact absurd hkept (h.stored entry hentry j hfile').1
    · rw [hsome]
      rw [Disk.holds_of hfile, hcontent] at hkept
      cases hfile' : d'.file entry.path with
      | none =>
        rw [Disk.holds_of_none hfile'] at hkept
        cases hkept
      | some j =>
        rw [Disk.holds_of hfile'] at hkept
        exact .present (Disk.file_eq_some.1 hfile') hkept htext hsource

/-- The entries can be listed again, those that were written with what was written. Their identities
are still different, since no file was replaced by another one. -/
theorem lists (h : Standing d entries i₀ bytes done d') (horder : InPathOrder entries)
    {root : SourceRoot δ} {document : Path} {ds : List DiscoveredFragment}
    (hlists : Lists d root (some ⟨document, i₀⟩) [] ds entries) :
    Lists d' root (some ⟨document, i₀⟩) [] ds (entries.map (InventoryEntry.after done)) := by
  refine ⟨?_, ?_, ?_, ?_, ?_⟩
  · rw [List.forall₂_map_right_iff]
    refine hlists.aligned.imp fun f entry hentry => ?_
    obtain ⟨hindex, hpath, hembedded, hbaseline, htarget⟩ := hentry
    exact ⟨by simpa using hindex, by simpa using hpath, by simpa using hembedded,
      by simpa using hbaseline, by simpa using htarget⟩
  · rw [List.forall_mem_map]
    intro entry hentry
    rw [InventoryEntry.after_path]
    exact h.finds hentry (hlists.found entry hentry)
  · rw [List.forall_mem_map]
    intro entry hentry
    rw [InventoryEntry.after_target]
    exact hlists.named entry hentry
  · rw [List.filterMap_map, List.Nodup, List.pairwise_filterMap]
    refine (List.pairwise_iff_forall_sublist.2 fun {a b} hsub => ?_)
    intro i hi j hj heq
    have ha : a ∈ entries := hsub.subset (by simp)
    have hb : b ∈ entries := hsub.subset (by simp)
    rw [Function.comp_apply, InventoryEntry.after_path, h.identity_eq ha] at hi
    rw [Function.comp_apply, InventoryEntry.after_path, h.identity_eq hb] at hj
    have hlt := List.pairwise_iff_forall_sublist.1 horder.pairwise hsub
    exact hlt.ne (h.distinct a ha b hb i hi (heq ▸ hj))
  · rw [List.forall_mem_map]
    intro entry hentry i hi
    rw [InventoryEntry.after_path, h.identity_eq hentry] at hi
    refine ⟨by simp, fun o ho => ?_⟩
    cases ho
    exact (h.stored entry hentry i hi).2.symm

/-- What stands is what discovery finds. -/
theorem shows_ {W : Workspace fs access paths} {inventory : Inventory δ} (hshows : W.Shows d inventory)
    (horder : InPathOrder inventory.entries) (hdocument : d.document = some i₀)
    (h : Standing d inventory.entries i₀ inventory.documentBytes done d') : W.Shows d'
      { inventory with entries := inventory.entries.map (InventoryEntry.after done) } := by
  obtain ⟨hpath, hroot, i, hi, hbytes, document, ds, hparse, hds, hlists⟩ := hshows
  obtain rfl := Option.some.inj (hi.symm.trans hdocument)
  exact ⟨hpath, hroot, i, h.document, h.bytes, document, ds, hparse, hds, h.lists horder hlists⟩

end Standing

end

/-! ## Interrupted commits -/

section
variable {σ δ φ ε : Type}

/-- The commit of a batch that begins in the state `s` has stopped in a state, with the first `k`
outputs written and neither the next one nor the document begun. Directories for the next output may
have been made, and the access to what is written next may have been asked for. -/
inductive Interrupted (fs : FileSystem σ δ φ) (access : AccessPolicy σ ε) (b : Batch δ) (s : σ)
    (k : Nat) : σ → Prop
  | written {completed : List FragmentPath} {t : σ} :
      commitExternals access (realFilesystem fs b.inventory.sourceRoot)
        (absentTargets b.inventory.entries) [] (b.external.take k) s = (.ok completed, t) →
      Interrupted fs access b s k t
  | created {output : ExternalOutput} {completed : List FragmentPath} {t t' : σ}
      {r : Except (PolicyFailure (CommitAccessFailure ε) CommitError) Unit} :
      Interrupted fs access b s k t → b.external[k]? = some output →
      createParent (realFilesystem fs b.inventory.sourceRoot) completed output t = (r, t') →
      Interrupted fs access b s k t'
  | granted {destination : Path} {t : σ} : Interrupted fs access b s k t →
      Interrupted fs access b s k (access.grant .write destination t).2

variable {fs : FileSystem σ δ φ} {access : AccessPolicy σ ε} {paths : ResolvedPaths}

variable {W : Workspace fs access paths}

/-- A loop over outputs that returns passes behind each of them. The induction is on the outputs. -/
theorem commitExternals_take {filesystem : CommitFilesystem σ} {absentTargets completed completed' :
    List FragmentPath} {outputs : List ExternalOutput} {s t : σ}
    (h : commitExternals access filesystem absentTargets completed outputs s = (.ok completed', t))
    (k : Nat) : ∃ completed₁ t₁, commitExternals access filesystem absentTargets completed
      (outputs.take k) s = (.ok completed₁, t₁) := by
  induction outputs generalizing k completed s with
  | nil => exact ⟨completed, s, by rw [List.take_nil]; rfl⟩
  | cons output outputs ih =>
    cases k with
    | zero => exact ⟨completed, s, rfl⟩
    | succ k =>
      obtain ⟨completed₁, t₁, hone, h⟩ := Run.bind_eq_ok.1 h
      obtain ⟨completed₂, t₂, hrest⟩ := ih h k
      exact ⟨completed₂, t₂, Run.bind_eq_ok.2 ⟨completed₁, t₁, hone, hrest⟩⟩

/-- What stands when a commit is interrupted. It is what the loop leaves behind its first `k`
outputs. A directory that is made, or an access that is granted, changes none of it. -/
theorem Interrupted.standing {b : Batch δ} {s t : σ} {k : Nat} (h : Interrupted fs access b s k t)
    (hseparate : W.Separate b.inventory.targets) (habove : W.MakesAbove b.inventory.targets)
    (hroot : W.IsRoot b.inventory.sourceRoot.directory) (horder : InPathOrder b.inventory.entries)
    (hextracted : ∀ entry ∈ b.prepared.extracted, entry ∈ b.inventory.entries) {d : Disk φ}
    {i : FileIdentity} {bytes : Bytes}
    (hstanding : Standing d b.inventory.entries i bytes [] (W.view s)) :
    Standing d b.inventory.entries i bytes (b.prepared.extracted.take k) (W.view t) := by
  have htargets : ∀ entry ∈ b.inventory.entries, entry.path ∈ b.inventory.targets :=
    fun entry hentry => ⟨entry, hentry, rfl⟩
  induction h with
  | written hrun =>
    rw [Batch.external, ← List.map_take] at hrun
    exact commitExternals_standing hseparate hroot horder htargets
      (fun entry hentry => hextracted entry (List.mem_of_mem_take hentry)) hrun hstanding
  | @created output completed t t' r _ houtput hrun ih =>
    obtain ⟨entry, hentry, rfl⟩ := List.mem_map.1 (List.mem_of_getElem? houtput)
    obtain ⟨hextends, hcontent⟩ := createParent_quiet W hroot hrun
    exact ih.of_same hextends hcontent fun other hother => createParent_target hseparate habove hroot
      (htargets entry (hextracted entry hentry)) hrun _ (htargets other hother)
  | @granted destination t _ ih =>
    obtain ⟨hview, -⟩ := W.grant .write destination _ t rfl
    rwa [hview]

end

/-! ## The second command -/

section
variable [Sha256]

omit [Sha256] in
/-- The updates at a node are about its fragments, one update each. A node without updates has
nothing to address. -/
theorem AddressesNodes.addressed {document : Document} (ho : document.Ordered)
    {nodeUpdates : OrdMap Nat (List FragmentUpdate)} (h : AddressesNodes document nodeUpdates)
    {n : SourceNode} (hn : n ∈ document.sources) {p : ParsedSource} (hp : Parses n p) :
    Addressed ((nodeUpdates.find? n.handle.index).getD []) p.view := by
  cases hfind : nodeUpdates.find? n.handle.index with
  | none => exact ⟨.nil, by simp⟩
  | some updates =>
    obtain ⟨n', hn', hindex, p', hp', haddressed⟩ := h _ (OrdMap.find?_eq_some.1 hfind)
    obtain rfl : n' = n := Option.some.inj
      (((findNode_eq_some ho).2 ⟨hn', hindex⟩).symm.trans ((findNode_eq_some ho).2 ⟨hn, rfl⟩))
    obtain rfl := Except.ok.inj (hp'.symm.trans hp)
    exact haddressed

/-- The entry of a fragment has its hash and its text. It is found by its path, which no other entry
has. -/
theorem Discovers.fragment {δ : Type} {bytes : Bytes} {root : SourceRoot δ}
    {ds : List DiscoveredFragment} {inventory : Inventory δ} (h : Discovers bytes root ds inventory)
    {document : Document} (hparse : Document.parse 1 bytes = .ok document) {n : SourceNode}
    (hn : n ∈ document.sources) {p : ParsedSource} (hp : Parses n p) {f : FragmentView}
    (hf : f ∈ p.view) {entry : InventoryEntry} (hentry : entry ∈ inventory.entries)
    (hpath : entry.path = f.path) : entry.baseline = f.baseline ∧
      BaselineHash.fromSource entry.embedded = .ofText f.source := by
  obtain ⟨document', hparse', hds⟩ := h.document
  obtain rfl := Except.ok.inj (hparse.symm.trans hparse')
  obtain ⟨d, hd, hdiscovered⟩ := hds.exists_discovered hn hp hf
  obtain ⟨entry', hentry', hisEntry⟩ := exists_right_of_forall₂ h.entries hd
  obtain rfl := h.sorted.path_inj hentry' hentry
    (by rw [hisEntry.path, hdiscovered.path, hpath])
  exact ⟨hisEntry.baseline.trans hdiscovered.baseline, by rw [hisEntry.embedded, hdiscovered.hash]⟩

variable {σ δ φ ε : Type} {fs : FileSystem σ δ φ} {access : AccessPolicy σ ε} {request : Request}
  {s u v w : σ} {b : Batch δ}

/-- Where some of what a command extracts is in its files, the same command prepares the same
document, and extracts the rest. -/
theorem Prepares.resumes (h : Prepares fs access request s b u) (hop : b.op.forcedAction = none)
    {done : List InventoryEntry} (hdone : ∀ entry ∈ done, entry ∈ b.prepared.extracted)
    {inventory : Inventory δ} (hdiscovered : Inventory.discoverForDocument fs b.paths.sourceRoot
      b.paths.document access v = (.ok inventory, w))
    (hbytes : inventory.documentBytes = b.inventory.documentBytes)
    (hentries : inventory.entries = b.inventory.entries.map (InventoryEntry.after done)) :
    ∃ prepared, Prepares fs access request v { b with
        inventory, selected := b.selected.map (InventoryEntry.after done), prepared } w ∧
      ∀ entry ∈ b.inventory.entries, (entry.after done ∈ prepared.extracted ↔
        entry ∈ b.prepared.extracted ∧ entry ∉ done) := by
  obtain ⟨horder, hchosen, hsublist, hselectors⟩ := h.selected_sublist
  obtain ⟨-, hprepared, hmaterialized⟩ := h.preparedFrom
  obtain ⟨ds, hds⟩ := h.discovers
  obtain ⟨ds', hds'⟩ := discoverForDocument_discovers hdiscovered
  have hselected : inventory.select request.selectors =
      .ok (b.selected.map (InventoryEntry.after done)) := by
    refine (Inventory.select_eq_ok hds'.sorted).2 ⟨?_, ?_⟩
    · rw [hentries, InventoryEntry.map_path_after]
      exact hselectors
    · rw [hentries, InventoryEntry.chosen_after, ← hchosen]
  have hextract : ∀ entry ∈ done,
      (decideEntry b.op (selectionKind request.selectors) entry).2 = .act .extract :=
    fun entry hentry => (h.mem_extracted.1 (hdone entry hentry)).2
  have hforced : ForcedOnConflicts b.op (selectionKind request.selectors)
      (b.selected.map (InventoryEntry.after done)) := fun hne => absurd hop hne
  obtain ⟨prepared, hprepare⟩ := prepare_ok (List.forall_mem_map.2 fun entry hentry =>
    decideEntry_embed hforced hentry)
  have hprepared' := prepare_eq_ok hprepare
  have hmaterialized' : materializeDocument b.inventory.documentBytes prepared.nodeUpdates =
      .ok b.output := by
    refine materializeDocument_congr hmaterialized (fun i hi => ?_) fun document hparse n hn p hp =>
      ⟨?_, fun f hf => ?_⟩
    · obtain ⟨updates, hfind⟩ := OrdMap.mem_keys.1 hi
      have hleft := hprepared'.updates i
      have hall := hprepared.updates i
      rw [hfind, Option.getD_some] at hleft
      obtain ⟨x, hx⟩ := List.exists_mem_of_ne_nil updates
        fun hnil => hprepared'.nonempty i (hnil ▸ hfind)
      rw [hleft] at hx
      have hmem := updatesAt_after_subset hop hextract i hx
      rw [← hall] at hmem
      cases hfind' : b.prepared.nodeUpdates.find? i with
      | none =>
        rw [hfind'] at hmem
        cases hmem
      | some updates' => exact OrdMap.mem_keys.2 ⟨_, hfind'⟩
    · obtain ⟨document₁, hparse₁, hsources⟩ := parse_document hparse 1
      have hn₁ : n.replaced 1 [] ∈ document₁.sources := hsources ▸ List.mem_map_of_mem hn
      refine AddressesNodes.addressed (Document.parse_ordered hparse₁).1 ?_ hn₁ hp
      refine hds'.addressesNodes ?_ hprepared' (hbytes ▸ hparse₁)
      rw [hentries]
      exact hsublist.map _
    · obtain ⟨document₁, hparse₁, hsources⟩ := parse_document hparse 1
      have hn₁ : n.replaced 1 [] ∈ document₁.sources := hsources ▸ List.mem_map_of_mem hn
      rw [hprepared'.updates, hprepared.updates]
      exact wanted_after hop horder hsublist hextract fun entry hentry hpath =>
        hds.fragment hparse₁ hn₁ hp hf hentry hpath
  have hprepares : Prepares fs access request v { b with
      inventory, selected := b.selected.map (InventoryEntry.after done), prepared } w :=
    ⟨h.paths, hdiscovered, hselected, h.mode,
      hbytes ▸ prepareOutputs_eq_ok.2 ⟨hforced, hprepare, hmaterialized'⟩⟩
  refine ⟨prepared, hprepares, fun entry hentry => ?_⟩
  rw [hprepares.mem_extracted, h.mem_extracted, horder.mem_after hsublist.subset hentry, and_assoc]
  refine and_congr_right fun _ => ?_
  by_cases hmem : entry ∈ done
  · rw [decideEntry_after hop hmem]
    refine iff_of_false (fun heq => ?_) fun hboth => hboth.2 hmem
    split at heq <;> cases heq
  · rw [InventoryEntry.after_of_not_mem hmem]
    exact (and_iff_left hmem).symm

/-! ## The end of the commands -/

omit [Sha256] in
/-- The disk `d'` is what the batch makes of the disk `d`: it has the new document, the extracted
fragments in their files, and what was in the other files. -/
structure Batch.Finished {δ φ : Type} (b : Batch δ) (d d' : Disk φ) : Prop where
  document : ∃ i, d.document = some i ∧ d'.document = some i ∧
    d'.content i = some (b.output.getD b.inventory.documentBytes)
  written : ∀ entry ∈ b.prepared.extracted, d'.holds entry.path = some (encode entry.embedded.value)
  kept : ∀ entry ∈ b.inventory.entries, entry ∉ b.prepared.extracted →
    d'.holds entry.path = d.holds entry.path

/-- The disks have the same bytes in the document and in the files at the targets. -/
structure SameFiles {φ : Type} (targets : Set FragmentPath) (d d' : Disk φ) : Prop where
  document : ∃ i bytes, d.document = some i ∧ d'.document = some i ∧ d.content i = some bytes ∧
    d'.content i = some bytes
  holds : ∀ path ∈ targets, d'.holds path = d.holds path

omit [Sha256] in
/-- A batch makes one thing of a disk. What was extracted is written, and the rest is kept, both
times. -/
theorem Batch.Finished.same {δ φ : Type} {b : Batch δ} {d d₁ d₂ : Disk φ} (h₁ : b.Finished d d₁)
    (h₂ : b.Finished d d₂) : SameFiles b.inventory.targets d₁ d₂ := by
  constructor
  case document =>
    obtain ⟨i, hi, hdocument₁, hcontent₁⟩ := h₁.document
    obtain ⟨j, hj, hdocument₂, hcontent₂⟩ := h₂.document
    obtain rfl := Option.some.inj (hi.symm.trans hj)
    exact ⟨i, _, hdocument₁, hdocument₂, hcontent₁, hcontent₂⟩
  case holds =>
    rintro path ⟨entry, hentry, rfl⟩
    by_cases hmem : entry ∈ b.prepared.extracted
    · rw [h₁.written entry hmem, h₂.written entry hmem]
    · rw [h₁.kept entry hentry hmem, h₂.kept entry hentry hmem]

/-- A command that returns has finished its batch. -/
theorem Prepares.finished (h : Prepares fs access request s b u) {W : Workspace fs access b.paths}
    (hseparate : W.Separate b.inventory.targets) {report : Report} {t : σ}
    (hrun : executeWithAccess fs access request s = (.ok report, t)) :
    b.Finished (W.view s) (W.view t) := by
  obtain ⟨-, i, hi, hstanding⟩ := h.finishes hseparate hrun
  exact ⟨⟨i, hi, hstanding.document, hstanding.bytes⟩, hstanding.written, hstanding.kept⟩

/-- A command whose discovery fails fails as it does. -/
theorem executeWithAccess_of_error {paths : ResolvedPaths}
    (hpaths : resolvePaths request.cwd request.document request.sourceRoot = .ok paths)
    {e : PolicyFailure ε InventoryError} (hdiscovered : Inventory.discoverForDocument fs
      paths.sourceRoot paths.document access s = (.error e, u)) :
    executeWithAccess fs access request s =
      (.error ((e.mapAccess .discovery).mapOperation .inventory), u) := by
  unfold executeWithAccess executeUsing
  rw [Run.bind_of_ok (operation_of_ok hpaths), Run.bind_of_error (t := u) (by
    rw [Run.mapError_apply, hdiscovered]; rfl)]

/-- A command that was interrupted between two writes can be resumed: the same command again
finishes what the first one had prepared, unless the filesystem fails it. So it leaves the document
and the files that the first one leaves when it is not interrupted. -/
theorem executeWithAccess_resumes (h : Prepares fs access request s b u)
    (hop : b.op.forcedAction = none) (W : Workspace fs access b.paths)
    (hseparate : W.Separate b.inventory.targets) (habove : W.MakesAbove b.inventory.targets) {k : Nat}
    (hinterrupted : Interrupted fs access b u k v) :
    (∀ report t, executeWithAccess fs access request v = (.ok report, t) →
      b.Finished (W.view s) (W.view t) ∧
      ∀ report' t', executeWithAccess fs access request s = (.ok report', t') →
        SameFiles b.inventory.targets (W.view t') (W.view t)) ∧
    ∀ failure t, executeWithAccess fs access request v = (.error failure, t) →
      EngineFailsInIo failure := by
  obtain ⟨hview, hshows⟩ := h.shows W
  obtain ⟨i, hi, hstored, document, ds, -, -, hlists⟩ := hshows.listed
  obtain ⟨horder, -, hsublist, -⟩ := h.selected_sublist
  have hstart := Standing.ofLists hi hstored hlists
  rw [← hview] at hstart
  have hstanding := hinterrupted.standing hseparate habove hshows.isRoot horder
    (fun entry hentry => hsublist.subset (h.mem_extracted.1 hentry).1) hstart
  rw [hview] at hstanding
  have hshows' := hstanding.shows_ hshows horder hi
  have hobserves := discoverForDocument_observes W (d := W.view v)
  cases hdiscovered : Inventory.discoverForDocument fs b.paths.sourceRoot b.paths.document access v with
  | mk r w =>
  cases r with
  | error e =>
    have hrun := executeWithAccess_of_error h.paths hdiscovered
    refine ⟨(fun report t hok => by cases hrun.symm.trans hok), fun failure t hfail => ?_⟩
    cases hrun.symm.trans hfail
    obtain ⟨-, hrefused⟩ := hobserves.eq_error rfl hdiscovered
    cases e with
    | access e => exact .access
    | operation e => exact .inventory (hrefused.resolve_right fun hnone => hnone ⟨_, hshows'⟩)
  | ok inventory =>
    obtain ⟨hview', hfound⟩ := hobserves.eq_ok rfl hdiscovered
    obtain ⟨hbytes, hentries⟩ := hshows'.unique hfound
    obtain ⟨prepared, hprepares, hextracted⟩ := h.resumes hop
      (fun entry hentry => List.mem_of_mem_take hentry) hdiscovered hbytes hentries
    have htargets : inventory.targets ⊆ b.inventory.targets := by
      rintro path ⟨entry', hentry', rfl⟩
      rw [hentries] at hentry'
      obtain ⟨entry, hentry, rfl⟩ := List.mem_map.1 hentry'
      exact ⟨entry, hentry, InventoryEntry.after_path.symm⟩
    have hseparate' := hseparate.mono htargets
    refine ⟨fun report t hok => ?_, fun failure t hfail => hprepares.failsInIo hseparate' hfail⟩
    have hfinished := hprepares.finished hseparate' hok
    have hall : b.Finished (W.view s) (W.view t) := by
      constructor
      case document =>
        obtain ⟨j, hj, hdocument, hcontent⟩ := hfinished.document
        obtain rfl := Option.some.inj (hj.symm.trans hstanding.document)
        exact ⟨j, hi, hdocument, hbytes ▸ hcontent⟩
      case written =>
        intro entry hentry
        have hmem := hsublist.subset (h.mem_extracted.1 hentry).1
        by_cases hdone : entry ∈ b.prepared.extracted.take k
        · have hkept := hfinished.kept _ (hentries ▸ List.mem_map_of_mem hmem)
            fun hagain => ((hextracted entry hmem).1 hagain).2 hdone
          rw [InventoryEntry.after_path] at hkept
          rw [hkept, hstanding.written entry hdone]
        · have hwritten := hfinished.written _ ((hextracted entry hmem).2 ⟨hentry, hdone⟩)
          rwa [InventoryEntry.after_of_not_mem hdone] at hwritten
      case kept =>
        intro entry hentry hnot
        have hkept := hfinished.kept _ (hentries ▸ List.mem_map_of_mem hentry)
          fun hagain => hnot ((hextracted entry hentry).1 hagain).1
        rw [InventoryEntry.after_path] at hkept
        rw [hkept, hstanding.kept entry hentry fun hdone => hnot (List.mem_of_mem_take hdone)]
    exact ⟨hall, fun report' t' hok' => (h.finished hseparate hok').same hall⟩

/-- A command that returns can be interrupted behind any of its writes. Behind the first `k` writes
the loop is where a run of these alone would be. -/
theorem Prepares.exists_interrupted (h : Prepares fs access request s b u) {report : Report} {t : σ}
    (hrun : executeWithAccess fs access request s = (.ok report, t)) (k : Nat) :
    ∃ v, Interrupted fs access b u k v := by
  rw [executeWithAccess, h.executeUsing_eq] at hrun
  split at hrun
  · next hnothing =>
    have hnone : commitExternals access (realFilesystem fs b.inventory.sourceRoot)
        (absentTargets b.inventory.entries) [] (b.external.take k) u = (.ok [], u) := by
      rw [Batch.external, List.isEmpty_iff.1 hnothing.1, List.map_nil, List.take_nil]
      rfl
    exact ⟨u, .written hnone⟩
  · obtain ⟨_, t', hcommit, -⟩ := Run.bind_eq_ok.1 hrun
    have hcommitted : commitUsing access (realFilesystem fs b.inventory.sourceRoot) b.external
        (absentTargets b.inventory.entries) b.document u = (.ok _, t') := Run.mapError_eq_ok.1 hcommit
    obtain ⟨_, s₁, hordered, houtputs⟩ := Run.bind_eq_ok.1 hcommitted
    obtain ⟨completed, t₁, hexternals, -⟩ := Run.bind_eq_ok.1 houtputs
    rw [(operation_eq_ok.1 hordered).2] at hexternals
    obtain ⟨completed₁, v, htake⟩ := commitExternals_take hexternals k
    exact ⟨v, .written htake⟩

end

/-- The extraction of a pair of fragments is interrupted behind the first one, and resumed. The
command that resumes finds the first file as it should be, and records it. -/
theorem executeWithAccess_resumes_sample : ∃ (b : Batch Location) (u v : Tree)
    (W : Workspace (treeFilesystem []) AccessPolicy.direct b.paths),
    @Interrupted _ _ _ _ (treeFilesystem []) AccessPolicy.direct b u 1 v ∧
    (∀ report t, extractPair [samplePath, pairPath] v = (.ok report, t) →
      b.Finished (W.view pairTree) (W.view t) ∧
      ∀ report' t', extractPair [samplePath, pairPath] pairTree = (.ok report', t') →
        SameFiles b.inventory.targets (W.view t') (W.view t)) ∧
    ∀ failure t, extractPair [samplePath, pairPath] v = (.error failure, t) →
      EngineFailsInIo failure := by
  let _ : Sha256 := lfDigest
  obtain ⟨report, hrun⟩ := @exists_of_isOk _ _ _ (extractPair [samplePath, pairPath] pairTree)
    (by decide +kernel)
  obtain ⟨⟨paths, inventory, selected, op, prepared, output⟩, u, h, rfl⟩ := exists_prepares rfl hrun
  obtain rfl : sampleResolved = paths := Except.ok.inj h.paths
  obtain ⟨v, hinterrupted⟩ := h.exists_interrupted hrun 1
  obtain ⟨-, hshows⟩ := h.shows sampleWorkspace
  have hseparate : sampleWorkspace.Separate inventory.targets :=
    (treeWorkspace_separate _ _ _ _ (Workspace.targets_free sampleWorkspace _)).mono
      fun path hpath => ⟨inventory, hshows, hpath⟩
  refine ⟨⟨sampleResolved, inventory, selected, .extract false, prepared, output⟩, u, v,
    sampleWorkspace, hinterrupted, ?_⟩
  exact executeWithAccess_resumes h rfl sampleWorkspace hseparate (treeWorkspace_makesAbove _ _ _ _)
    hinterrupted

end Zwirn.Sync
