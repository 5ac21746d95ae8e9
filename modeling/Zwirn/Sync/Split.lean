import Zwirn.Fragment.Splice
import Zwirn.Sync.Rediscover
import Zwirn.Sync.TreeDisk

/-!
# Split selections

Fragments are processed independently: where the targets are separate, a command on a selection and
the same command on two parts of it, one behind the other, leave the same files and the same texts
of the nodes, and report the same (`executeWithAccess_split`). The second command decides what the
whole one decides, since it finds the entries that the first one did not select as they were, and
its updates splice into the text that the first one has left (`NodeUpdated.twice`).
-/

namespace Zwirn.Sync

open Lib Fragment Adls

/-! ## Parts of a selection -/

section
variable {entries entries' : List InventoryEntry} {selectors selectors' : List FragmentPath}

/-- Where something is named, an entry is chosen exactly if its path is. -/
theorem mem_chosen_of_ne_nil (hne : selectors ≠ []) {entry : InventoryEntry} :
    entry ∈ chosen selectors entries ↔ entry ∈ entries ∧ entry.path ∈ selectors := by
  rw [mem_chosen]
  simp only [hne, false_or]

/-- What is chosen of entries in path order is in path order. -/
theorem InPathOrder.chosen (h : InPathOrder entries) (selectors : List FragmentPath) :
    InPathOrder (chosen selectors entries) :=
  h.sublist ((chosen_sublist _ _).map _)

/-- A selection has the entries it had when those are as they were. The paths are the same all
along, so the same places are selected. -/
theorem chosen_eq_of_aligned (hne : selectors ≠ [])
    (h : List.Forall₂ (fun entry entry' => entry'.path = entry.path ∧
      (entry.path ∈ selectors → entry' = entry)) entries entries') :
    chosen selectors entries' = chosen selectors entries := by
  rw [chosen, chosen, if_neg hne, if_neg hne]
  induction h with
  | nil => rfl
  | @cons entry entry' entries entries' hentry _ ih =>
    obtain ⟨hpath, hsame⟩ := hentry
    by_cases hmem : entry.path ∈ selectors
    · rw [hsame hmem, List.filter_cons_of_pos (by simpa using hmem),
        List.filter_cons_of_pos (by simpa using hmem), ih]
    · rw [List.filter_cons_of_neg (by simpa [hpath] using hmem),
        List.filter_cons_of_neg (by simpa using hmem), ih]

/-- A selection is made up of its parts. No entry is in both parts, as the parts have no path in
common. -/
theorem chosen_perm {selectors₁ selectors₂ : List FragmentPath} (hne : selectors ≠ [])
    (hne₁ : selectors₁ ≠ []) (hne₂ : selectors₂ ≠ []) (horder : InPathOrder entries)
    (hmem : ∀ path, path ∈ selectors ↔ path ∈ selectors₁ ∨ path ∈ selectors₂)
    (hdisjoint : selectors₁.Disjoint selectors₂) : (chosen selectors entries).Perm
      (chosen selectors₁ entries ++ chosen selectors₂ entries) := by
  have hnodup : ∀ selectors, (chosen selectors entries).Nodup := fun selectors =>
    List.Nodup.of_map _ ((horder.chosen selectors).imp ne_of_lt)
  refine (List.perm_ext_iff_of_nodup (hnodup _) ?_).2 fun entry => ?_
  · rw [List.nodup_append]
    refine ⟨hnodup _, hnodup _, fun a ha b hb heq => ?_⟩
    subst heq
    exact hdisjoint ((mem_chosen_of_ne_nil hne₁).1 ha).2 ((mem_chosen_of_ne_nil hne₂).1 hb).2
  · rw [List.mem_append, mem_chosen_of_ne_nil hne, mem_chosen_of_ne_nil hne₁,
      mem_chosen_of_ne_nil hne₂, hmem]
    tauto

section
variable [Sha256] {op : Operation} {selection : SelectionKind}

/-- The updates of selected entries name different paths. -/
theorem updatesAt_nodup (horder : InPathOrder entries) (nodeIndex : Nat) :
    ((updatesAt (entries.map (decideEntry op selection)) nodeIndex).map
      FragmentUpdate.path).Nodup := by
  refine List.Nodup.sublist (map_path_updatesAt _ _) ?_
  rw [List.map_map]
  exact horder.imp ne_of_lt

/-- An update is about one of the entries it was decided for. -/
theorem mem_updatesAt_path {nodeIndex : Nat} {u : FragmentUpdate}
    (hu : u ∈ updatesAt (entries.map (decideEntry op selection)) nodeIndex) :
    ∃ entry ∈ entries, entry.path = u.path := by
  obtain ⟨entry, hentry, -, hupdate⟩ := mem_updatesAt_decideEntry.1 hu
  exact ⟨entry, hentry, (updateOf_path hupdate).symm⟩

/-- What is wanted for a path depends only on whether it is selected. There is one entry with the
path, and the decision about it does not look at the others. -/
theorem wantedSource_chosen (horder : InPathOrder entries) (hne : selectors ≠ [])
    (hne' : selectors' ≠ []) {path : FragmentPath} (hpath : path ∈ selectors ↔ path ∈ selectors')
    (nodeIndex : Nat) :
    wantedSource (updatesAt ((chosen selectors entries).map (decideEntry op selection)) nodeIndex)
        path =
      wantedSource (updatesAt ((chosen selectors' entries).map (decideEntry op selection)) nodeIndex)
        path := by
  have hone : ∀ {selectors selectors'}, selectors ≠ [] → selectors' ≠ [] →
      (path ∈ selectors → path ∈ selectors') → ∀ {r}, wantedSource (updatesAt
        ((chosen selectors entries).map (decideEntry op selection)) nodeIndex) path = some r →
      wantedSource (updatesAt ((chosen selectors' entries).map (decideEntry op selection)) nodeIndex)
        path = some r := by
    intro selectors selectors' hne hne' himp r hr
    obtain ⟨u, hu, rfl, rfl⟩ := mem_of_wantedSource hr
    obtain ⟨entry, hentry, hindex, hupdate⟩ := mem_updatesAt_decideEntry.1 hu
    obtain ⟨hentry, hselected⟩ := (mem_chosen_of_ne_nil hne).1 hentry
    rw [updateOf_path hupdate] at himp
    refine wantedSource_of_mem (updatesAt_nodup (horder.chosen selectors') nodeIndex)
      (mem_updatesAt_decideEntry.2 ⟨entry, ?_, hindex, hupdate⟩)
    exact (mem_chosen_of_ne_nil hne').2 ⟨hentry, himp hselected⟩
  exact Option.ext fun r => ⟨hone hne hne' hpath.1, hone hne' hne hpath.2⟩

/-- The updates of a selection are split by its parts. A path of the selection is in one of the
parts only. -/
theorem splits_chosen {selectors₁ selectors₂ : List FragmentPath} (hne : selectors ≠ [])
    (hne₁ : selectors₁ ≠ []) (hne₂ : selectors₂ ≠ []) (horder : InPathOrder entries)
    (hmem : ∀ path, path ∈ selectors ↔ path ∈ selectors₁ ∨ path ∈ selectors₂)
    (hdisjoint : selectors₁.Disjoint selectors₂) (nodeIndex : Nat) (f : FragmentView) :
    Splits (updatesAt ((chosen selectors entries).map (decideEntry op selection)) nodeIndex)
      (updatesAt ((chosen selectors₁ entries).map (decideEntry op selection)) nodeIndex)
      (updatesAt ((chosen selectors₂ entries).map (decideEntry op selection)) nodeIndex) f := by
  have hnot : ∀ {selectors}, selectors ≠ [] → f.path ∉ selectors → f.path ∉ (updatesAt
      ((chosen selectors entries).map (decideEntry op selection)) nodeIndex).map
        FragmentUpdate.path := by
    intro selectors hne hnot hmem
    obtain ⟨u, hu, hpath⟩ := List.mem_map.1 hmem
    obtain ⟨entry, hentry, hentryPath⟩ := mem_updatesAt_path hu
    rw [← hpath, ← hentryPath] at hnot
    exact hnot ((mem_chosen_of_ne_nil hne).1 hentry).2
  by_cases hf : f.path ∈ selectors₂
  · refine .inr ⟨hnot hne₁ fun hf₁ => hdisjoint hf₁ hf, ?_⟩
    rw [FragmentView.wanted, FragmentView.wanted, wantedSource_chosen horder hne hne₂
      (by simp [hmem, hf])]
  · refine .inl ⟨hnot hne₂ hf, ?_⟩
    rw [FragmentView.wanted, FragmentView.wanted, wantedSource_chosen horder hne hne₁
      (by simp [hmem, hf])]

end

end

/-! ## The texts of the nodes -/

/-- The nodes of a document with their texts. -/
def nodeTexts (document : Document) : List (Nat × NodeKind × Str) :=
  document.sources.map fun n => (n.handle.index, n.kind, n.source)

section
variable [Sha256]

/-- A node that is updated twice, and parsed in between, has the text that all updates give it. This
is `ParsedSource.rewritten_twice` for the text of a node. -/
theorem NodeUpdated.twice {nodeUpdates nodeUpdates₁ nodeUpdates₂ : OrdMap Nat (List FragmentUpdate)}
    {n n₁ n₂ n' : SourceNode} (h₁ : NodeUpdated nodeUpdates₁ n n₁)
    (h₂ : NodeUpdated nodeUpdates₂ n₁ n₂) (h : NodeUpdated nodeUpdates n n')
    {p p₁ : ParsedSource} (hp : Parses n p) (hp₁ : Parses n₁ p₁)
    (hnodup : (p₁.view.map FragmentView.path).Nodup)
    (hsplits : ∀ f ∈ p.view, Splits ((nodeUpdates.find? n.handle.index).getD [])
      ((nodeUpdates₁.find? n.handle.index).getD []) ((nodeUpdates₂.find? n.handle.index).getD []) f) :
    n₂.source = n'.source := by
  obtain ⟨-, ss, tail, hs⟩ := ParsedSource.parse_eq_ok.1 hp
  obtain ⟨hsource₁, ss₁, tail₁, hs₁⟩ := ParsedSource.parse_eq_ok.1 hp₁
  obtain ⟨-, htext₁⟩ := h₁.text.sections hp hs
  obtain ⟨-, htext₂⟩ := h₂.text.sections hp₁ hs₁
  obtain ⟨-, htext⟩ := h.text.sections hp hs
  rw [h₁.kind] at hs₁
  rw [htext₂, htext, h₁.index]
  exact ParsedSource.rewritten_twice hs hs₁ (hsource₁.trans htext₁) hnodup hsplits

/-- Documents that are updated twice, and parsed in between, have the texts that all updates give
them. -/
theorem nodeTexts_twice {document document₁ document₂ document' : Document}
    {nodeUpdates nodeUpdates₁ nodeUpdates₂ : OrdMap Nat (List FragmentUpdate)}
    (h₁ : List.Forall₂ (NodeUpdated nodeUpdates₁) document.sources document₁.sources)
    (h₂ : List.Forall₂ (NodeUpdated nodeUpdates₂) document₁.sources document₂.sources)
    (h : List.Forall₂ (NodeUpdated nodeUpdates) document.sources document'.sources)
    (hvalid : ValidFragments document.sources) (hvalid₁ : ValidFragments document₁.sources)
    (hsplits : ∀ nodeIndex f, Splits ((nodeUpdates.find? nodeIndex).getD [])
      ((nodeUpdates₁.find? nodeIndex).getD []) ((nodeUpdates₂.find? nodeIndex).getD []) f) :
    nodeTexts document₂ = nodeTexts document' := by
  have hfirst := (List.forall₂_and_left _ _).2 ⟨fun n hn => hvalid.node hn, h₁⟩
  have hsecond := (List.forall₂_and_left _ _).2 ⟨fun n hn => hvalid₁.node hn, h₂⟩
  have hboth := forall₂_trans (T := fun n n₂ => ∃ n₁ p p₁, Parses n p ∧ Parses n₁ p₁ ∧
      (p₁.view.map FragmentView.path).Nodup ∧ NodeUpdated nodeUpdates₁ n n₁ ∧
        NodeUpdated nodeUpdates₂ n₁ n₂) (fun n n₁ n₂ hn hn₁ => by
    obtain ⟨⟨p, hp, -⟩, hupdated₁⟩ := hn
    obtain ⟨⟨p₁, hp₁, hnodup⟩, hupdated₂⟩ := hn₁
    exact ⟨n₁, p, p₁, hp, hp₁, hnodup, hupdated₁, hupdated₂⟩) hfirst hsecond
  have hall : List.Forall₂ (fun n₂ n' => (n₂.handle.index, n₂.kind, n₂.source) =
      (n'.handle.index, n'.kind, n'.source)) document₂.sources document'.sources := by
    refine forall₂_trans (fun n₂ n n' hn hn' => ?_) hboth.flip h
    obtain ⟨n₁, p, p₁, hp, hp₁, hnodup, hupdated₁, hupdated₂⟩ := hn
    rw [hupdated₂.index, hupdated₁.index, hn'.index, hupdated₂.kind, hupdated₁.kind, hn'.kind,
      hupdated₁.twice hupdated₂ hn' hp hp₁ hnodup fun f _ => hsplits _ f]
  exact map_eq_of_forall₂ hall fun _ _ heq => heq

end

/-! ## Two commands -/

/-- The request with other selectors. -/
def Request.on (request : Request) (selectors : List FragmentPath) : Request :=
  { request with selectors }

/-- The entries of a report are those of two others, in path order. -/
def MergesReports (entries entries₁ entries₂ : List ReportEntry) : Prop :=
  entries.Perm (entries₁ ++ entries₂) ∧ (entries.map ReportEntry.path).Pairwise (· < ·)

/-- The disks have the same files at the targets, and documents whose nodes have the same texts. -/
structure SameWork {φ : Type} (targets : Set FragmentPath) (d d' : Disk φ) : Prop where
  holds : ∀ path ∈ targets, d'.holds path = d.holds path
  nodes : ∃ i bytes bytes' document document', d.document = some i ∧ d'.document = some i ∧
    d.content i = some bytes ∧ d'.content i = some bytes' ∧ Document.parse 1 bytes = .ok document ∧
    Document.parse 1 bytes' = .ok document' ∧ nodeTexts document' = nodeTexts document

/-- The line of an entry is about its path. -/
theorem reportOf_path {d : InventoryEntry × Decision} {r : ReportEntry} (h : reportOf d = some r) :
    r.path = d.1.path := by
  obtain ⟨entry, decision⟩ := d
  cases decision with
  | settled => cases h
  | act action | unresolved state => cases h; rfl

section
variable [Sha256]

/-- What is reported of entries in path order is in path order. -/
theorem reports_sorted {entries : List InventoryEntry} (horder : InPathOrder entries)
    (op : Operation) (selection : SelectionKind) :
    (((entries.map (decideEntry op selection)).filterMap reportOf).map
      ReportEntry.path).Pairwise (· < ·) := by
  rw [List.pairwise_map, List.pairwise_filterMap, List.pairwise_map]
  refine horder.pairwise.imp fun hlt r hr r' hr' => ?_
  rw [reportOf_path hr, reportOf_path hr']
  exact hlt

variable {σ δ φ ε : Type} {fs : FileSystem σ δ φ} {access : AccessPolicy σ ε} {paths : ResolvedPaths}
  {W : Workspace fs access paths} {request : Request} {op : Operation} {s t u : σ} {b : Batch δ}

omit [Sha256] in
/-- A request that names fragments is an explicit one. -/
theorem selectionKind_of_ne_nil {selectors : List FragmentPath} (h : selectors ≠ []) :
    selectionKind selectors = .explicit := if_neg (by simpa using h)

/-- The command extracts the entry. -/
def Extracts (op : Operation) (selectors : List FragmentPath) (entry : InventoryEntry) : Prop :=
  entry.path ∈ selectors ∧ (decideEntry op .explicit entry).2 = .act .extract

/-- A run extracts the entries that it is asked to extract and that are decided so. -/
theorem Ran.mem_extracted {selectors : List FragmentPath} (hne : selectors ≠ [])
    (h : Ran W (request.on selectors) op s b t) {entry : InventoryEntry} :
    entry ∈ b.prepared.extracted ↔ entry ∈ b.inventory.entries ∧ Extracts op selectors entry := by
  rw [h.prepared.mem_extracted, h.selected]
  show entry ∈ chosen selectors _ ∧ (decideEntry op (selectionKind selectors) entry).2 = _ ↔ _
  rw [mem_chosen_of_ne_nil hne, selectionKind_of_ne_nil hne, and_assoc]
  rfl

/-- What the files of the entries hold after a command. -/
theorem Ran.holds {selectors : List FragmentPath} (hne : selectors ≠ [])
    (h : Ran W (request.on selectors) op s b t) {entry : InventoryEntry}
    (hentry : entry ∈ b.inventory.entries) :
    (Extracts op selectors entry →
      (W.view t).holds entry.path = some (encode entry.embedded.value)) ∧
    (¬ Extracts op selectors entry → (W.view t).holds entry.path = (W.view s).holds entry.path) := by
  obtain ⟨i, -, hstanding⟩ := h.standing
  refine ⟨fun hextracts => hstanding.written entry ((h.mem_extracted hne).2 ⟨hentry, hextracts⟩),
    fun hnot => hstanding.kept entry hentry fun hextracted => ?_⟩
  exact hnot ((h.mem_extracted hne).1 hextracted).2

/-- An entry that was not selected is found as it was. No update and no output is about it. -/
theorem Ran.unselected {selectors : List FragmentPath} (hne : selectors ≠ [])
    (h : Ran W (request.on selectors) op s b t) {entry entry' : InventoryEntry}
    (hentry : Rediscovered b.prepared entry entry') (hnot : entry.path ∉ selectors) :
    entry' = entry := by
  refine hentry.unchanged (fun hextracted => hnot ((h.mem_extracted hne).1 hextracted).2.1)
    fun hmem => ?_
  obtain ⟨u, hu, hpath⟩ := List.mem_map.1 hmem
  rw [h.prepared.updates] at hu
  obtain ⟨entry₁, hselected, hpath₁⟩ := mem_updatesAt_path hu
  rw [h.selected] at hselected
  rw [← hpath, ← hpath₁] at hnot
  exact hnot ((mem_chosen_of_ne_nil hne).1 hselected).2

/-- Two commands on parts of a selection, one behind the other, do what one command on all of it
does. -/
theorem Ran.split {selectors selectors₁ selectors₂ : List FragmentPath} (hne : selectors ≠ [])
    (hne₁ : selectors₁ ≠ []) (hne₂ : selectors₂ ≠ [])
    (hmem : ∀ path, path ∈ selectors ↔ path ∈ selectors₁ ∨ path ∈ selectors₂)
    (hdisjoint : selectors₁.Disjoint selectors₂) {b b₁ b₂ : Batch δ} {t₁ t₂ : σ}
    (h : Ran W (request.on selectors) op s b t) (h₁ : Ran W (request.on selectors₁) op s b₁ t₁)
    (h₂ : Ran W (request.on selectors₂) op t₁ b₂ t₂) :
    b₁.inventory.entries = b.inventory.entries ∧
      b₂.selected = chosen selectors₂ b.inventory.entries ∧
      SameWork (W.targets (W.view s)) (W.view t) (W.view t₂) := by
  obtain ⟨hbytes₁, hentries₁⟩ := h.shows_.unique h₁.shows_
  obtain ⟨hbytes₂, haligned⟩ := h₁.rediscovered h₂.shows_
  rw [hentries₁] at haligned
  have hselected₂ : b₂.selected = chosen selectors₂ b.inventory.entries := by
    refine h₂.selected.trans (chosen_eq_of_aligned hne₂ (haligned.imp fun entry entry' hentry =>
      ⟨hentry.path, fun hpath => ?_⟩))
    exact h₁.unselected hne₁ hentry fun hpath₁ => hdisjoint hpath₁ hpath
  refine ⟨hentries₁, hselected₂, ?_⟩
  obtain ⟨i, hi, hstanding⟩ := h.standing
  obtain ⟨i₁, hi₁, hstanding₁⟩ := h₁.standing
  obtain ⟨i₂, hi₂, hstanding₂⟩ := h₂.standing
  constructor
  case holds =>
    rintro path ⟨inventory, hshows, entry, hentry, rfl⟩
    rw [(h.shows_.unique hshows).2] at hentry
    obtain ⟨entry₂, hentry₂, hrediscovered⟩ := exists_right_of_forall₂ haligned hentry
    obtain ⟨hwritten, hkept⟩ := h.holds hne hentry
    obtain ⟨hwritten₁, hkept₁⟩ := h₁.holds hne₁ (hentries₁.symm ▸ hentry)
    obtain ⟨hwritten₂, hkept₂⟩ := h₂.holds hne₂ hentry₂
    by_cases hpath₁ : entry.path ∈ selectors₁
    · have hpath₂ : entry.path ∉ selectors₂ := fun hpath₂ => hdisjoint hpath₁ hpath₂
      rw [hrediscovered.path] at hkept₂
      rw [hkept₂ fun hextracts => hpath₂ (hrediscovered.path ▸ hextracts.1)]
      by_cases hextract : (decideEntry op .explicit entry).2 = .act .extract
      · rw [hwritten₁ ⟨hpath₁, hextract⟩, hwritten ⟨(hmem _).2 (.inl hpath₁), hextract⟩]
      · rw [hkept₁ fun hextracts => hextract hextracts.2, hkept fun hextracts => hextract hextracts.2]
    · obtain rfl : entry₂ = entry := h₁.unselected hne₁ hrediscovered hpath₁
      by_cases hextracts₂ : Extracts op selectors₂ entry₂
      · rw [hwritten₂ hextracts₂, hwritten ⟨(hmem _).2 (.inr hextracts₂.1), hextracts₂.2⟩]
      · rw [hkept₂ hextracts₂, hkept₁ fun hextracts => hpath₁ hextracts.1, hkept fun hextracts => ?_]
        exact hextracts₂ ⟨((hmem _).1 hextracts.1).resolve_left hpath₁, hextracts.2⟩
  case nodes =>
    obtain ⟨-, -, -, document, ds, hparse, hds, -⟩ := h.shows_.listed
    obtain ⟨-, -, -, document₁, ds₁, hparse₁, hds₁, -⟩ := h₂.shows_.listed
    obtain ⟨document', hparse', hupdated⟩ := materializeDocument_spec h.materialized hparse 1
    rw [hbytes₁] at hstanding₁
    have hmaterialized₁ := h₁.materialized
    rw [hbytes₁] at hmaterialized₁
    obtain ⟨document₁', hparse₁', hupdated₁⟩ := materializeDocument_spec hmaterialized₁ hparse 1
    rw [hbytes₂, hbytes₁] at hparse₁
    obtain rfl := Except.ok.inj (hparse₁.symm.trans hparse₁')
    have hmaterialized₂ := h₂.materialized
    rw [hbytes₂, hbytes₁] at hmaterialized₂ hstanding₂
    obtain ⟨document₂, hparse₂, hupdated₂⟩ := materializeDocument_spec hmaterialized₂ hparse₁ 1
    obtain rfl := Option.some.inj (hi.symm.trans hi₁)
    obtain rfl := Option.some.inj (hstanding₁.document.symm.trans hi₂)
    refine ⟨i, _, _, document', document₂, hstanding.document, hstanding₂.document, hstanding.bytes,
      hstanding₂.bytes, hparse', hparse₂, ?_⟩
    refine nodeTexts_twice hupdated₁ hupdated₂ hupdated hds.valid hds₁.valid fun nodeIndex f => ?_
    have hsplits := @splits_chosen b.inventory.entries selectors _ op .explicit selectors₁ selectors₂
      hne hne₁ hne₂ h.order hmem hdisjoint nodeIndex f
    rw [h.prepared.updates, h₁.prepared.updates, h₂.prepared.updates, h.selected, h₁.selected,
      hselected₂, hentries₁]
    simp only [Request.on, selectionKind_of_ne_nil hne, selectionKind_of_ne_nil hne₁,
      selectionKind_of_ne_nil hne₂]
    exact hsplits

/-- Discovery after a command finds no new targets. -/
theorem Ran.targets_subset (h : Ran W request op s b t) :
    W.targets (W.view t) ⊆ W.targets (W.view s) := by
  rintro path ⟨inventory, hshows, entry', hentry', rfl⟩
  obtain ⟨entry, hentry, hrediscovered⟩ := exists_left_of_forall₂ (h.rediscovered hshows).2 hentry'
  exact ⟨b.inventory, h.shows_, entry, hentry, hrediscovered.path.symm⟩

/-- Splitting a selection does not matter: where the targets are separate, the command on all of it
and the commands on two parts, in either order, leave the same files and the same texts of the
nodes, and what is reported of the parts makes up what is reported of all. -/
theorem executeWithAccess_split
    (hpaths : resolvePaths request.cwd request.document request.sourceRoot = .ok paths)
    (hmode : request.mode = .mutate op) (hseparate : W.Separate (W.targets (W.view s)))
    {selectors selectors₁ selectors₂ : List FragmentPath} (hne₁ : selectors₁ ≠ [])
    (hne₂ : selectors₂ ≠ [])
    (hmem : ∀ path, path ∈ selectors ↔ path ∈ selectors₁ ∨ path ∈ selectors₂)
    (hdisjoint : selectors₁.Disjoint selectors₂) {s₁ s₂ t₁ t₂ : σ}
    {report report₁ report₂ report₁' report₂' : Report}
    (hrun : executeWithAccess fs access (request.on selectors) s = (.ok report, t))
    (hrun₁ : executeWithAccess fs access (request.on selectors₁) s = (.ok report₁, s₁))
    (hrun₂ : executeWithAccess fs access (request.on selectors₂) s₁ = (.ok report₂, t₁))
    (hrun₂' : executeWithAccess fs access (request.on selectors₂) s = (.ok report₂', s₂))
    (hrun₁' : executeWithAccess fs access (request.on selectors₁) s₂ = (.ok report₁', t₂)) :
    SameWork (W.targets (W.view s)) (W.view t) (W.view t₁) ∧
      SameWork (W.targets (W.view s)) (W.view t) (W.view t₂) ∧
      MergesReports report.entries report₁.entries report₂.entries ∧
      report₁'.entries = report₁.entries ∧ report₂'.entries = report₂.entries := by
  have hne : selectors ≠ [] := by
    obtain ⟨path, hpath⟩ := List.exists_mem_of_ne_nil _ hne₁
    exact List.ne_nil_of_mem ((hmem path).2 (.inl hpath))
  obtain ⟨b, h, rfl⟩ := @exists_ran _ _ _ _ _ _ _ _ W (request.on selectors) op _ _ hpaths hmode
    hseparate _ hrun
  obtain ⟨b₁, h₁, rfl⟩ := @exists_ran _ _ _ _ _ _ _ _ W (request.on selectors₁) op _ _ hpaths hmode
    hseparate _ hrun₁
  obtain ⟨b₂, h₂, rfl⟩ := @exists_ran _ _ _ _ _ _ _ _ W (request.on selectors₂) op _ _ hpaths hmode
    (hseparate.mono h₁.targets_subset) _ hrun₂
  obtain ⟨b₂', h₂', rfl⟩ := @exists_ran _ _ _ _ _ _ _ _ W (request.on selectors₂) op _ _ hpaths
    hmode hseparate _ hrun₂'
  obtain ⟨b₁', h₁', rfl⟩ := @exists_ran _ _ _ _ _ _ _ _ W (request.on selectors₁) op _ _ hpaths
    hmode (hseparate.mono h₂'.targets_subset) _ hrun₁'
  obtain ⟨hentries₁, hselected₂, hsame⟩ := h.split hne hne₁ hne₂ hmem hdisjoint h₁ h₂
  obtain ⟨hentries₂', hselected₁', hsame'⟩ := h.split hne hne₂ hne₁
    (fun path => (hmem path).trans or_comm) hdisjoint.symm h₂' h₁'
  have hselected₁ : b₁.selected = chosen selectors₁ b.inventory.entries := by
    rw [h₁.selected, hentries₁]
    rfl
  have hselected₂' : b₂'.selected = chosen selectors₂ b.inventory.entries := by
    rw [h₂'.selected, hentries₂']
    rfl
  have hreport : ∀ {selectors s t} {b' : Batch δ}, selectors ≠ [] →
      Ran W (request.on selectors) op s b' t → b'.selected = chosen selectors b.inventory.entries →
      b'.report.entries = ((chosen selectors b.inventory.entries).map
        (decideEntry op .explicit)).filterMap reportOf := by
    intro selectors s t b' hne h' hselected
    rw [Batch.report, h'.prepared.report, hselected]
    simp only [Request.on, selectionKind_of_ne_nil hne]
  refine ⟨hsame, hsame', ?_, ?_, ?_⟩
  · rw [hreport hne h h.selected, hreport hne₁ h₁ hselected₁, hreport hne₂ h₂ hselected₂]
    refine ⟨?_, reports_sorted (h.order.chosen selectors) op .explicit⟩
    rw [← List.filterMap_append, ← List.map_append]
    exact ((chosen_perm hne hne₁ hne₂ h.order hmem hdisjoint).map _).filterMap _
  · rw [hreport hne₁ h₁' hselected₁', hreport hne₁ h₁ hselected₁]
  · rw [hreport hne₂ h₂' hselected₂', hreport hne₂ h₂ hselected₂]

end

/-! ## A sample -/

/-- The path of the second fragment of the sample pair. -/
def pairPath : FragmentPath := ⟨['q'], rfl⟩

/-- A document with a node of two fragments without text. -/
def pairBuffer : Bytes :=
  sampleBuffer.take 84 ++ [31, 0, 0, 0] ++ encode (Fragment.emptyFragment ['\n'] ++ ['\n', '-', '-',
    ' ', '@', '{', ' ', 'q', '\n', '-', '-', ' ', '@', '}', ' ', 'q']) ++ [0]

/-- A filesystem with the document in its root. -/
def pairTree : Tree := sampleTree.setContent [sampleDocumentName] pairBuffer

/-- Extracts fragments of the document. -/
def extractPair (selectors : List FragmentPath) (t : Tree) :
    Except (PolicyFailure (EngineAccessFailure Empty) Error) Report × Tree :=
  @executeWithAccess lfDigest _ _ _ _ (treeFilesystem []) AccessPolicy.direct
    (sampleRequest.on selectors) t

/-- Two fragments are extracted to new files, together and one behind the other. The two extractions
make the same files in either order. -/
theorem executeWithAccess_split_sample : ∃ report report₁ report₂ report₁' report₂' : Report,
    SameWork (sampleWorkspace.targets (sampleWorkspace.view pairTree))
      (sampleWorkspace.view (extractPair [samplePath, pairPath] pairTree).2)
      (sampleWorkspace.view (extractPair [pairPath] (extractPair [samplePath] pairTree).2).2) ∧
    SameWork (sampleWorkspace.targets (sampleWorkspace.view pairTree))
      (sampleWorkspace.view (extractPair [samplePath, pairPath] pairTree).2)
      (sampleWorkspace.view (extractPair [samplePath] (extractPair [pairPath] pairTree).2).2) ∧
    MergesReports report.entries report₁.entries report₂.entries ∧
    report₁'.entries = report₁.entries ∧ report₂'.entries = report₂.entries := by
  obtain ⟨report, hrun⟩ := @exists_of_isOk _ _ _ (extractPair [samplePath, pairPath] pairTree)
    (by decide +kernel)
  obtain ⟨report₁, hrun₁⟩ := @exists_of_isOk _ _ _ (extractPair [samplePath] pairTree)
    (by decide +kernel)
  obtain ⟨report₂, hrun₂⟩ := @exists_of_isOk _ _ _
    (extractPair [pairPath] (extractPair [samplePath] pairTree).2) (by decide +kernel)
  obtain ⟨report₂', hrun₂'⟩ := @exists_of_isOk _ _ _ (extractPair [pairPath] pairTree)
    (by decide +kernel)
  obtain ⟨report₁', hrun₁'⟩ := @exists_of_isOk _ _ _
    (extractPair [samplePath] (extractPair [pairPath] pairTree).2) (by decide +kernel)
  exact ⟨report, report₁, report₂, report₁', report₂',
    @executeWithAccess_split lfDigest _ _ _ _ _ _ _ sampleWorkspace sampleRequest (.extract false)
      pairTree _ rfl rfl (treeWorkspace_separate _ _ _ _ (Workspace.targets_free _ _))
      [samplePath, pairPath] [samplePath] [pairPath] (by simp) (by simp) (by simp) (by simp; decide)
      _ _ _ _ _ _ _ _ _ hrun hrun₁ hrun₂ hrun₂' hrun₁'⟩

end Zwirn.Sync
