import Zwirn.Sync.Discovery

/-!
# The entries of an inventory

The loop over the discovered fragments makes one entry for each of them, whatever the filesystem
answers (`discoverInner_eq_ok`), so the entries of an inventory are in strict path order
(`Discovers.sorted`). Over such entries a selection is exact (`select_eq_ok`).
-/

namespace Zwirn.Sync

open Lib Fragment Adls

/-! ## Selection -/

/-- Entries in strict path order. -/
def InPathOrder (entries : List InventoryEntry) : Prop :=
  (entries.map InventoryEntry.path).Pairwise (· < ·)

instance (entries : List InventoryEntry) : Decidable (InPathOrder entries) :=
  inferInstanceAs (Decidable (List.Pairwise _ _))

section
variable {entries : List InventoryEntry}

/-- Entries in path order are ordered by pairs. -/
theorem InPathOrder.pairwise (h : InPathOrder entries) : entries.Pairwise (·.path < ·.path) :=
  List.pairwise_map.1 h

/-- Leaving out entries keeps the order. -/
theorem InPathOrder.filter (h : InPathOrder entries) (p : InventoryEntry → Bool) :
    InPathOrder (entries.filter p) := List.pairwise_map.2 (h.pairwise.filter p)

/-- A path belongs to one entry. -/
theorem InPathOrder.path_inj (h : InPathOrder entries) {a b : InventoryEntry} (ha : a ∈ entries)
    (hb : b ∈ entries) (heq : a.path = b.path) : a = b :=
  List.inj_on_of_nodup_map (h.imp ne_of_lt) ha hb heq

/-- Entries in path order ascend around every path. -/
theorem InPathOrder.ascending (h : InPathOrder entries) (path : FragmentPath) :
    Ascending (fun entry : InventoryEntry => cmp entry.path path) entries := by
  refine h.pairwise.imp fun {a b} hlt => ?_
  simp only [cmp_eq_gt_iff, cmp_eq_lt_iff]
  exact ⟨fun hgt => hgt.trans hlt, fun hlt' => hlt.trans hlt'⟩

variable {δ : Type} {inventory : Inventory δ}

/-- The search finds the entry with a path. The search needs the strict order of the paths. So an
index that it gives has that entry, and where it fails there is none. -/
theorem Inventory.find_eq_ok (h : InPathOrder inventory.entries) {selector : FragmentPath}
    {entry : InventoryEntry} :
    inventory.find selector = .ok entry ↔ entry ∈ inventory.entries ∧ entry.path = selector := by
  unfold Inventory.find
  refine ⟨fun hfind => ?_, fun hentry => ?_⟩
  · split at hfind
    · next index hindex =>
      obtain ⟨found, hfound, heq⟩ := binarySearchBy_ok hindex
      rw [okOr_eq_ok, hfound, Option.some.injEq] at hfind
      subst hfind
      exact ⟨List.mem_of_getElem? hfound, (cmp_eq_eq_iff _ _).1 heq⟩
    · cases hfind
  · obtain ⟨hmem, rfl⟩ := hentry
    obtain ⟨index, hindex⟩ := binarySearchBy_isOk (h.ascending entry.path) hmem
      ((cmp_eq_eq_iff _ _).2 rfl)
    obtain ⟨found, hfound, heq⟩ := binarySearchBy_ok hindex
    rw [hindex]
    dsimp only
    rw [hfound, h.path_inj (List.mem_of_getElem? hfound) hmem ((cmp_eq_eq_iff _ _).1 heq)]
    rfl

/-- The ordered set of the selectors. -/
theorem mem_selectorSet {selectors : List FragmentPath} {set : OrdMap FragmentPath Unit}
    {path : FragmentPath} :
    path ∈ (selectors.foldl (fun set selector => set.insert selector ()) set).keys ↔
      path ∈ selectors ∨ path ∈ set.keys := by
  induction selectors generalizing set with
  | nil => simp
  | cons selector selectors ih =>
    rw [List.foldl_cons, ih, OrdMap.mem_keys_insert, List.mem_cons]
    tauto

/-- What a selection has to be. -/
def chosen (selectors : List FragmentPath) (entries : List InventoryEntry) : List InventoryEntry :=
  if selectors = [] then entries else entries.filter fun entry => entry.path ∈ selectors

/-- What is chosen stands in the order of the inventory. -/
theorem chosen_sublist (selectors : List FragmentPath) (entries : List InventoryEntry) :
    (chosen selectors entries).Sublist entries := by
  unfold chosen
  split
  · exact List.Sublist.refl _
  · exact List.filter_sublist

/-- An entry is chosen if nothing is named, or if its path is. -/
theorem mem_chosen {selectors : List FragmentPath} {entry : InventoryEntry} :
    entry ∈ chosen selectors entries ↔
      entry ∈ entries ∧ (selectors = [] ∨ entry.path ∈ selectors) := by
  unfold chosen
  split
  · next h => simp [h]
  · next h => simp [h]

/-- A selection is accepted when every selector has an entry, and has the entries selected. The
selectors become a set in path order, so a selector that occurs twice makes no difference. -/
theorem Inventory.select_eq_ok (h : InPathOrder inventory.entries) {selectors : List FragmentPath}
    {selected : List InventoryEntry} : inventory.select selectors = .ok selected ↔
      (∀ selector ∈ selectors, selector ∈ inventory.entries.map InventoryEntry.path) ∧
      selected = chosen selectors inventory.entries := by
  unfold Inventory.select chosen
  by_cases hnil : selectors = []
  · subst hnil
    rw [if_pos List.isEmpty_nil, if_pos rfl, Except.pure_eq_ok]
    simp [eq_comm]
  · rw [if_neg (by simpa using hnil), if_neg hnil]
    dsimp only
    have hset : ∀ path, path ∈ (selectors.foldl (fun set selector => set.insert selector ())
        (OrdMap.empty : OrdMap FragmentPath Unit)).keys ↔ path ∈ selectors := by
      intro path
      rw [mem_selectorSet]
      simp [OrdMap.empty, OrdMap.keys]
    generalize hkeys : selectors.foldl (fun set selector => set.insert selector ())
      (OrdMap.empty : OrdMap FragmentPath Unit) = set at hset
    have hsorted := set.keys_sorted
    rw [mapM_eq_ok]
    simp only [Inventory.find_eq_ok h]
    refine ⟨fun hall => ?_, fun hall => ?_⟩
    · have hpaths : selected.map InventoryEntry.path = set.keys := by
        rw [← map_eq_of_forall₂ (f := id) hall fun _ _ hentry => hentry.2.symm, List.map_id]
      have hmem : ∀ selector ∈ selectors, ∃ entry ∈ selected,
          entry ∈ inventory.entries ∧ entry.path = selector := by
        intro selector hselector
        exact exists_right_of_forall₂ hall ((hset selector).2 hselector)
      refine ⟨fun selector hselector => ?_, ?_⟩
      · obtain ⟨entry, -, hentry, rfl⟩ := hmem selector hselector
        exact List.mem_map_of_mem hentry
      · refine List.Pairwise.eq_of_mem_iff (r := (·.path < ·.path)) ?_ (h.filter _).pairwise ?_
        · rw [← hpaths] at hsorted
          exact List.pairwise_map.1 hsorted
        · intro entry
          rw [List.mem_filter, decide_eq_true_eq]
          refine ⟨fun hentry => ?_, fun hentry => ?_⟩
          · obtain ⟨selector, hselector, hin, rfl⟩ := exists_left_of_forall₂ hall hentry
            exact ⟨hin, (hset _).1 hselector⟩
          · obtain ⟨hin, hselector⟩ := hentry
            obtain ⟨entry', hentry', hin', heq⟩ := hmem _ hselector
            rwa [h.path_inj hin hin' heq.symm]
    · obtain ⟨hall, rfl⟩ := hall
      have hpaths : (inventory.entries.filter fun entry => entry.path ∈ selectors).map
          InventoryEntry.path = set.keys := by
        refine List.Pairwise.eq_of_mem_iff (h.filter _) hsorted fun path => ?_
        rw [hset, List.mem_map]
        refine ⟨fun hentry => ?_, fun hpath => ?_⟩
        · obtain ⟨entry, hentry, rfl⟩ := hentry
          simpa using (List.mem_filter.1 hentry).2
        · obtain ⟨entry, hentry, rfl⟩ := List.mem_map.1 (hall path hpath)
          exact ⟨entry, List.mem_filter.2 ⟨hentry, by simpa using hpath⟩, rfl⟩
      rw [← hpaths, List.forall₂_map_left_iff, List.forall₂_same]
      exact fun entry hentry => ⟨(List.mem_filter.1 hentry).1, rfl⟩

end

/-! ## Discovery -/

section
variable {σ δ φ ε : Type}

/-- The entry of a discovered fragment. What is found at its target is left open, since the rest is
the same on every filesystem. -/
structure IsEntry (root : SourceRoot δ) (d : DiscoveredFragment) (entry : InventoryEntry) :
    Prop where
  nodeIndex : entry.nodeIndex = d.nodeIndex
  path : entry.path = d.path
  embedded : entry.embedded = d.embedded
  baseline : entry.baseline = d.baseline
  target : entry.target = root.namedPath (relativePath d.path)

variable {fs : FileSystem σ δ φ} {access : AccessPolicy σ ε} {root : SourceRoot δ}
  {origin : Option DocumentOrigin} {identities : OrdMap FileIdentity FragmentPath} {s t : σ}

/-- An input is accepted when its file was not seen before and holds a source. The checks are made
in this order, and each has an error of its own. -/
theorem acceptInput_eq_ok {path : FragmentPath} {target : Path} {input : ExistingInput}
    {source : CanonicalSource} : acceptInput origin path target identities input = .ok source ↔
      (∀ o ∈ origin, o.identity ≠ input.identity) ∧ input.identity ∉ identities.keys ∧
        ∃ text, decode input.bytes = some text ∧ CanonicalSource.tryFrom text = .ok source := by
  have horigin : ¬ (origin.any fun o => o.identity = input.identity) = true ↔
      ∀ o ∈ origin, o.identity ≠ input.identity := by
    cases origin <;> simp
  unfold acceptInput
  rw [Except.bind_eq_ok]
  simp only [require_eq_ok, horigin, OrdMap.mem_keys, exists_const]
  refine and_congr_right fun _ => ?_
  cases hfind : identities.find? input.identity with
  | some first => simp
  | none => simp [okOr_eq_ok]

/-- An entry is of the fragment it was discovered for, with this one's source and baseline. The
entry is made from the fragment before the target is read. -/
theorem discoverEntry_isEntry {d : DiscoveredFragment} {entry : InventoryEntry}
    {identities' : OrdMap FileIdentity FragmentPath}
    (h : discoverEntry fs access root origin identities d s = (.ok (entry, identities'), t)) :
    IsEntry root d entry := by
  unfold discoverEntry at h
  obtain ⟨_, _, _, h⟩ := Run.bind_eq_ok.1 h
  obtain ⟨_, _, _, h⟩ := Run.bind_eq_ok.1 h
  obtain ⟨input, _, _, h⟩ := Run.bind_eq_ok.1 h
  cases input with
  | none =>
    cases h
    exact ⟨rfl, rfl, rfl, rfl, rfl⟩
  | some input =>
    obtain ⟨_, _, _, h⟩ := Run.bind_eq_ok.1 h
    cases h
    exact ⟨rfl, rfl, rfl, rfl, rfl⟩

/-- The loop makes one entry for each fragment. The induction is on the fragments. -/
theorem discoverEntries_forall₂ {ds : List DiscoveredFragment} {entries : List InventoryEntry}
    (h : discoverEntries fs access root origin identities ds s = (.ok entries, t)) :
    List.Forall₂ (IsEntry root) ds entries := by
  induction ds generalizing identities s entries with
  | nil =>
    cases h
    exact .nil
  | cons d ds ih =>
    obtain ⟨⟨entry, identities'⟩, t', hentry, h⟩ := Run.bind_eq_ok.1 h
    obtain ⟨entries, t'', hentries, h⟩ := Run.bind_eq_ok.1 h
    cases h
    exact .cons (discoverEntry_isEntry hentry) (ih hentries)

/-- What an inventory of a buffer is, on any filesystem. The entries are those of the fragments of
the document, in the same order. -/
structure Discovers (bytes : Bytes) (root : SourceRoot δ) (ds : List DiscoveredFragment)
    (inventory : Inventory δ) : Prop where
  sourceRoot : inventory.sourceRoot = root
  documentBytes : inventory.documentBytes = bytes
  document : ∃ document, Document.parse 1 bytes = .ok document ∧
    DocumentDiscovered document.sources ds
  entries : List.Forall₂ (IsEntry root) ds inventory.entries

/-- Discovery is the pure part followed by the loop over the targets. The pure part is the parser
and the discovery of the fragments, which see the bytes only. -/
theorem discoverInner_eq_ok {bytes : Bytes} {inventory : Inventory δ} :
    Inventory.discoverInner fs bytes root origin access s = (.ok inventory, t) ↔
      ∃ document ds, Document.parse 1 bytes = .ok document ∧
        DocumentDiscovered document.sources ds ∧ inventory.sourceRoot = root ∧
        inventory.documentBytes = bytes ∧
        discoverEntries fs access root origin .empty ds s = (.ok inventory.entries, t) := by
  simp only [Inventory.discoverInner, Run.bind_eq_ok, operation_eq_ok, mapError_eq_ok]
  refine ⟨fun h => ?_, fun h => ?_⟩
  · obtain ⟨document, _, ⟨hdocument, rfl⟩, ds, _, ⟨hds, rfl⟩, entries, _, hentries, h⟩ := h
    cases h
    exact ⟨document, ds, hdocument, discoverFragments_eq_ok.1 hds, rfl, rfl, hentries⟩
  · obtain ⟨document, ds, hdocument, hds, rfl, rfl, hentries⟩ := h
    exact ⟨document, s, ⟨hdocument, rfl⟩, ds, s, ⟨discoverFragments_eq_ok.2 hds, rfl⟩, _, t,
      hentries, rfl⟩

/-- A discovery that returned has discovered the fragments of the document. -/
theorem exists_discovers {bytes : Bytes} {inventory : Inventory δ}
    (h : Inventory.discoverInner fs bytes root origin access s = (.ok inventory, t)) :
    ∃ ds, Discovers bytes root ds inventory := by
  obtain ⟨document, ds, hdocument, hds, hroot, hbytes, hentries⟩ := discoverInner_eq_ok.1 h
  exact ⟨ds, hroot, hbytes, ⟨document, hdocument, hds⟩, discoverEntries_forall₂ hentries⟩

/-- So has one that read the document first. -/
theorem discoverForDocument_discovers {sourceRoot document : Path} {inventory : Inventory δ}
    (h : Inventory.discoverForDocument fs sourceRoot document access s = (.ok inventory, t)) :
    ∃ ds, Discovers inventory.documentBytes inventory.sourceRoot ds inventory := by
  obtain ⟨root, s₁, -, h₁⟩ := Run.bind_eq_ok.1 h
  obtain ⟨input, s₂, -, h₂⟩ := Run.bind_eq_ok.1 h₁
  obtain ⟨ds, hds⟩ := exists_discovers h₂
  rw [hds.documentBytes, hds.sourceRoot]
  exact ⟨ds, hds⟩

end

namespace Discovers
variable {δ : Type} {bytes : Bytes} {root : SourceRoot δ} {ds : List DiscoveredFragment}
  {inventory : Inventory δ}

/-- The entries have the paths of the fragments, in their order. -/
theorem map_path (h : Discovers bytes root ds inventory) :
    inventory.entries.map InventoryEntry.path = ds.map DiscoveredFragment.path :=
  (map_eq_of_forall₂ h.entries fun _ _ hentry => hentry.path.symm).symm

/-- The entries of an inventory are in strict path order. -/
theorem sorted (h : Discovers bytes root ds inventory) : InPathOrder inventory.entries := by
  obtain ⟨document, -, hds⟩ := h.document
  rw [InPathOrder, h.map_path]
  exact hds.sorted

/-- An entry is a fragment of its node. It was discovered in the node with its index, whose
fragments have different paths. -/
theorem exists_view (h : Discovers bytes root ds inventory) {entry : InventoryEntry}
    (hentry : entry ∈ inventory.entries) : ∃ document n p f,
      Document.parse 1 bytes = .ok document ∧ n ∈ document.sources ∧
      n.handle.index = entry.nodeIndex ∧ Parses n p ∧
      (p.view.map FragmentView.path).Nodup ∧ f ∈ p.view ∧ f.path = entry.path := by
  obtain ⟨document, hdocument, hds⟩ := h.document
  obtain ⟨d, hd, hentry⟩ := exists_left_of_forall₂ h.entries hentry
  obtain ⟨n, hn, p, hp, f, hf, hdiscovered⟩ := hds.exists_fragment hd
  obtain ⟨p', hp', hnodup⟩ := hds.valid.node hn
  obtain rfl := Except.ok.inj (hp.symm.trans hp')
  exact ⟨document, n, p, f, hdocument, hn,
    by rw [hentry.nodeIndex, hdiscovered.nodeIndex], hp, hnodup, hf,
    by rw [hentry.path, hdiscovered.path]⟩

end Discovers

end Zwirn.Sync
