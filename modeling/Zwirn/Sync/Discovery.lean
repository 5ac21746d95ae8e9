import Zwirn.Sync.Inventory
import Zwirn.Sync.Materialize

/-!
# What discovery finds in a document

`discoverFragments_eq_ok` says which fragments of a document are discovered, and when: each node
parses, each source is canonical, no path occurs twice, and no path lies beneath another. The paths
alone decide about the last two, so a document with the same paths is discovered as well
(`discoverFragments_of_aligned`).
-/

namespace Zwirn.Sync

open Lib Fragment Adls

/-! ## One node -/

/-- The fragment `f` of the node `nodeIndex` as it is discovered. -/
structure IsDiscovered (nodeIndex : Nat) (f : FragmentView) (d : DiscoveredFragment) : Prop where
  nodeIndex : d.nodeIndex = nodeIndex
  path : d.path = f.path
  embedded : CanonicalSource.tryFrom f.source = .ok d.embedded
  baseline : d.baseline = f.baseline

/-- A fragment is discovered with the canonical form of its source, and not otherwise. -/
theorem discoverFragment_eq_ok {nodeIndex : Nat} {f : FragmentView} {d : DiscoveredFragment} :
    discoverFragment nodeIndex f = .ok d ↔ IsDiscovered nodeIndex f d := by
  simp only [discoverFragment, Except.bind_eq_ok, mapError_eq_ok, Except.pure_eq_ok]
  refine ⟨fun h => ?_, fun h => ?_⟩
  · obtain ⟨embedded, hembedded, rfl⟩ := h
    exact ⟨rfl, rfl, hembedded, rfl⟩
  · obtain ⟨i, path, embedded, baseline⟩ := d
    obtain ⟨rfl, rfl, hembedded, rfl⟩ := h
    exact ⟨embedded, hembedded, rfl⟩

/-- The fragments of a node as they are discovered. -/
def NodeDiscovered (n : SourceNode) (ds : List DiscoveredFragment) : Prop :=
  ∃ p, Parses n p ∧ List.Forall₂ (IsDiscovered n.handle.index) p.view ds

/-- A node has exactly the fragments of its markers, in their order. -/
theorem discoverNode_eq_ok {n : SourceNode} {ds : List DiscoveredFragment} :
    discoverNode n = .ok ds ↔ NodeDiscovered n ds := by
  simp only [discoverNode, Except.bind_eq_ok, mapError_eq_ok, mapM_eq_ok, discoverFragment_eq_ok]
  rfl

/-! ## Paths -/

/-- No path lies beneath another one. -/
def PrefixFree (paths : List FragmentPath) : Prop :=
  ∀ path ∈ paths, ∀ ancestor ∈ ancestors [] path.value, ∀ other ∈ paths, other.value ≠ ancestor

/-- In a list in path order comparing neighbours is enough: the paths increase strictly. Equal paths
would be neighbours. -/
theorem validateUniqueness_eq_ok {ds : List DiscoveredFragment} {u : Unit}
    (hsorted : ds.Pairwise fun a b => a.path ≤ b.path) :
    validateUniqueness ds = .ok u ↔ (ds.map DiscoveredFragment.path).Pairwise (· < ·) := by
  rw [← List.isChain_iff_pairwise]
  induction ds with
  | nil => simp [validateUniqueness]
  | cons left rest ih =>
    cases rest with
    | nil => simp [validateUniqueness]
    | cons right rest =>
      obtain ⟨hle, hrest⟩ := List.pairwise_cons.1 hsorted
      have hlt : left.path ≠ right.path ↔ left.path < right.path :=
        ⟨lt_of_le_of_ne (hle right List.mem_cons_self), ne_of_lt⟩
      rw [validateUniqueness, Except.bind_eq_ok, List.map_cons, List.map_cons,
        List.isChain_cons_cons, ← List.map_cons, ← ih hrest, ← hlt]
      simp only [require_eq_ok, exists_const, ih hrest]

/-- Texts are compared in their linear order. -/
theorem cmp_text (a b : Str) :
    cmp a b = @cmp Str LinearOrder.toPartialOrder.toLT LinearOrder.toDecidableLT a b := by
  congr

/-- Fragments in path order ascend around every text. -/
theorem ascending_path {ds : List DiscoveredFragment}
    (hsorted : (ds.map DiscoveredFragment.path).Pairwise (· < ·)) (text : Str) :
    Ascending (fun d : DiscoveredFragment => cmp d.path.value text) ds := by
  refine (List.pairwise_map.1 hsorted).imp fun {a b} hlt => ?_
  have hlt : a.path.value < b.path.value := hlt
  simp only [cmp_text, cmp_eq_gt_iff, cmp_eq_lt_iff]
  exact ⟨fun hgt => hgt.trans hlt, fun hlt' => hlt.trans hlt'⟩

/-- The parts in front of the separators. The induction is on the text, with what was passed in
front. -/
theorem mem_ancestors {before text ancestor : Str} :
    ancestor ∈ ancestors before text ↔ ∃ s rest, text = s ++ '/' :: rest ∧ ancestor = before ++ s := by
  induction text generalizing before with
  | nil => simp [ancestors]
  | cons c text ih =>
    have hlater : ancestor ∈ ancestors (before ++ [c]) text ↔
        ∃ s rest, c :: text = (c :: s) ++ '/' :: rest ∧ ancestor = before ++ (c :: s) := by
      simp [ih]
    rw [ancestors]
    split
    · next hc =>
      subst hc
      rw [List.mem_cons, hlater]
      refine ⟨fun h => ?_, fun h => ?_⟩
      · rcases h with rfl | ⟨s, rest, htext, hanc⟩
        · exact ⟨[], text, rfl, (List.append_nil _).symm⟩
        · exact ⟨_, rest, htext, hanc⟩
      · obtain ⟨s, rest, htext, hanc⟩ := h
        cases s with
        | nil => exact .inl (by rw [hanc, List.append_nil])
        | cons c' s =>
          obtain ⟨rfl, _⟩ := List.cons.inj htext
          exact .inr ⟨s, rest, htext, hanc⟩
    · next hc =>
      rw [hlater]
      refine ⟨fun h => ?_, fun h => ?_⟩
      · obtain ⟨s, rest, htext, hanc⟩ := h
        exact ⟨_, rest, htext, hanc⟩
      · obtain ⟨s, rest, htext, hanc⟩ := h
        cases s with
        | nil => exact absurd (List.cons.inj htext).1 hc
        | cons c' s =>
          obtain ⟨rfl, _⟩ := List.cons.inj htext
          exact ⟨s, rest, htext, hanc⟩

/-- A path is among those that are looked for exactly if it lies above the fragment. -/
theorem mem_ancestors_iff {path other : FragmentPath} :
    path.value ∈ ancestors [] other.value ↔ path.IsAncestor other := by
  rw [mem_ancestors, FragmentPath.isAncestor_iff]
  simp [eq_comm]

/-- No path lies above another one, as the code compares them. -/
theorem prefixFree_iff {paths : List FragmentPath} :
    PrefixFree paths ↔ ∀ path ∈ paths, ∀ other ∈ paths, ¬ path.IsAncestor other := by
  refine ⟨fun h path hpath other hother hanc => ?_, fun h other hother ancestor hanc path hpath heq => ?_⟩
  · exact h other hother path.value (mem_ancestors_iff.2 hanc) path hpath rfl
  · exact h path hpath other hother (mem_ancestors_iff.1 (heq ▸ hanc))

/-- One probe succeeds when no fragment has the path, and else names that fragment. The search
compares texts, and the fragments are in the order of their texts. -/
theorem validateAncestor_cases {ds : List DiscoveredFragment} {fragment : DiscoveredFragment}
    {ancestor : Str} (hsorted : (ds.map DiscoveredFragment.path).Pairwise (· < ·)) :
    (validateAncestor ds fragment ancestor = .ok () ∧ ∀ other ∈ ds, other.path.value ≠ ancestor) ∨
    ∃ found ∈ ds, found.path.value = ancestor ∧
      validateAncestor ds fragment ancestor =
        .error (.pathPrefixConflict found.path fragment.path) := by
  unfold validateAncestor
  split
  · next index hindex =>
    obtain ⟨found, hfound, heq⟩ := binarySearchBy_ok hindex
    rw [hfound]
    rw [cmp_text, cmp_eq_eq_iff] at heq
    exact .inr ⟨found, List.mem_of_getElem? hfound, heq, rfl⟩
  · next index hindex =>
    refine .inl ⟨rfl, fun other hother heq => ?_⟩
    refine binarySearchBy_error (ascending_path hsorted ancestor) hindex other hother ?_
    rw [cmp_text, cmp_eq_eq_iff]
    exact heq

/-- The check succeeds exactly if no fragment lies beneath another one. The binary search finds
every candidate, since the paths increase strictly. -/
theorem validatePathPrefixes_eq_ok {ds : List DiscoveredFragment} {u : Unit}
    (hsorted : (ds.map DiscoveredFragment.path).Pairwise (· < ·)) :
    validatePathPrefixes ds = .ok u ↔ PrefixFree (ds.map DiscoveredFragment.path) := by
  have hone : ∀ fragment ancestor, validateAncestor ds fragment ancestor = .ok () ↔
      ∀ other ∈ ds, other.path.value ≠ ancestor := by
    intro fragment ancestor
    rcases @validateAncestor_cases ds fragment ancestor hsorted with
      ⟨hok, hnone⟩ | ⟨found, hfound, heq, herror⟩
    · exact iff_of_true hok hnone
    · exact iff_of_false (by rw [herror]; exact fun h => by cases h) fun h => h found hfound heq
  unfold validatePathPrefixes PrefixFree
  simp only [forM_eq_ok, hone, List.forall_mem_map]

/-- The rejection of ancestors is exact: among fragments in path order it fails exactly when one
path is an ancestor of another one, and the failure names two such paths. The fragments above one
are looked for by binary search, so no order of the two matters. -/
theorem validatePathPrefixes_exact {ds : List DiscoveredFragment}
    (hsorted : (ds.map DiscoveredFragment.path).Pairwise (· < ·)) :
    ((∃ e, validatePathPrefixes ds = .error e) ↔
      ∃ a ∈ ds, ∃ d ∈ ds, a.path.IsAncestor d.path) ∧
    ∀ e, validatePathPrefixes ds = .error e →
      ∃ a ∈ ds, ∃ d ∈ ds, a.path.IsAncestor d.path ∧ e = .pathPrefixConflict a.path d.path := by
  have herror : ∀ e, validatePathPrefixes ds = .error e →
      ∃ a ∈ ds, ∃ d ∈ ds, a.path.IsAncestor d.path ∧ e = .pathPrefixConflict a.path d.path := by
    intro e h
    obtain ⟨fragment, hfragment, h⟩ := forM_eq_error h
    obtain ⟨ancestor, hancestor, h⟩ := forM_eq_error h
    rcases @validateAncestor_cases ds fragment ancestor hsorted with
      ⟨hok, _⟩ | ⟨found, hfound, heq, hfail⟩
    · rw [hok] at h
      cases h
    · rw [hfail] at h
      rw [← heq] at hancestor
      exact ⟨found, hfound, fragment, hfragment, mem_ancestors_iff.1 hancestor,
        (Except.error.inj h).symm⟩
  refine ⟨⟨fun h => ?_, fun h => ?_⟩, herror⟩
  · obtain ⟨e, h⟩ := h
    obtain ⟨a, ha, d, hd, hanc, _⟩ := herror e h
    exact ⟨a, ha, d, hd, hanc⟩
  · obtain ⟨a, ha, d, hd, hanc⟩ := h
    cases hv : validatePathPrefixes ds with
    | error e => exact ⟨e, rfl⟩
    | ok u =>
      have hfree := prefixFree_iff.1 ((validatePathPrefixes_eq_ok hsorted).1 hv)
      exact absurd hanc (hfree _ (List.mem_map_of_mem ha) _ (List.mem_map_of_mem hd))

/-- A fragment of an empty source. -/
def emptyFragment (path : FragmentPath) : DiscoveredFragment := ⟨0, path, ⟨[], rfl, by decide⟩, none⟩

/-- A parent and its child with a path between them. -/
def interposedFragments : List DiscoveredFragment :=
  [emptyFragment ⟨['a'], rfl⟩, emptyFragment ⟨['a', '-', 'e'], rfl⟩,
    emptyFragment ⟨['a', '/', 'c'], rfl⟩]

/-- On paths with another one in between the check still finds the pair: `a` and `a/c` are not
neighbours here, since `a-e` stands between them. -/
theorem validatePathPrefixes_interposed :
    ((∃ e, validatePathPrefixes interposedFragments = .error e) ↔
      ∃ a ∈ interposedFragments, ∃ d ∈ interposedFragments, a.path.IsAncestor d.path) ∧
    ∀ e, validatePathPrefixes interposedFragments = .error e →
      ∃ a ∈ interposedFragments, ∃ d ∈ interposedFragments,
        a.path.IsAncestor d.path ∧ e = .pathPrefixConflict a.path d.path :=
  validatePathPrefixes_exact (by decide)

/-! ## A document -/

/-- The fragments of a document as they are discovered. -/
structure DocumentDiscovered (nodes : List SourceNode) (ds : List DiscoveredFragment) : Prop where
  found : ∃ found, List.Forall₂ NodeDiscovered nodes found ∧
    ds = found.flatten.insertionSort fun left right => left.path ≤ right.path
  sorted : (ds.map DiscoveredFragment.path).Pairwise (· < ·)
  prefixFree : PrefixFree (ds.map DiscoveredFragment.path)

/-- The fragments of a document are discovered exactly as the specification says: every node parses,
the paths differ, and none lies beneath another one. -/
theorem discoverFragments_eq_ok {document : Document} {ds : List DiscoveredFragment} :
    discoverFragments document = .ok ds ↔ DocumentDiscovered document.sources ds := by
  have hle : ∀ found : List DiscoveredFragment,
      (found.insertionSort fun left right => left.path ≤ right.path).Pairwise
        fun left right => left.path ≤ right.path := by
    intro found
    have hmap := List.map_insertionSort (r := fun left right : DiscoveredFragment =>
      left.path ≤ right.path) (s := (· ≤ ·)) DiscoveredFragment.path found fun _ _ _ _ => Iff.rfl
    rw [← List.pairwise_map, hmap]
    exact List.pairwise_insertionSort (· ≤ ·) _
  simp only [discoverFragments, Except.bind_eq_ok, mapM_eq_ok, discoverNode_eq_ok,
    Except.pure_eq_ok]
  refine ⟨fun h => ?_, fun h => ?_⟩
  · obtain ⟨found, hfound, u, hunique, u', hprefix, rfl⟩ := h
    have hsorted := (validateUniqueness_eq_ok (hle _)).1 hunique
    exact ⟨⟨found, hfound, rfl⟩, hsorted, (validatePathPrefixes_eq_ok hsorted).1 hprefix⟩
  · obtain ⟨⟨found, hfound, rfl⟩, hsorted, hprefix⟩ := h
    exact ⟨found, hfound, (), (validateUniqueness_eq_ok (hle _)).2 hsorted, (),
      (validatePathPrefixes_eq_ok hsorted).2 hprefix, rfl⟩

/-- Every discovered fragment is one of a node. -/
theorem DocumentDiscovered.exists_fragment {nodes : List SourceNode}
    {ds : List DiscoveredFragment} (h : DocumentDiscovered nodes ds) {d : DiscoveredFragment}
    (hd : d ∈ ds) : ∃ n ∈ nodes, ∃ p, Parses n p ∧ ∃ f ∈ p.view,
      IsDiscovered n.handle.index f d := by
  obtain ⟨found, hfound, rfl⟩ := h.found
  rw [List.mem_insertionSort, List.mem_flatten] at hd
  obtain ⟨ds, hds, hd⟩ := hd
  obtain ⟨n, hn, p, hp, hfragments⟩ := exists_left_of_forall₂ hfound hds
  obtain ⟨f, hf, hdiscovered⟩ := exists_left_of_forall₂ hfragments hd
  exact ⟨n, hn, p, hp, f, hf, hdiscovered⟩

/-- Every fragment of a node is discovered. -/
theorem DocumentDiscovered.exists_discovered {nodes : List SourceNode}
    {ds : List DiscoveredFragment} (h : DocumentDiscovered nodes ds) {n : SourceNode}
    (hn : n ∈ nodes) {p : ParsedSource} (hp : Parses n p) {f : FragmentView} (hf : f ∈ p.view) :
    ∃ d ∈ ds, IsDiscovered n.handle.index f d := by
  obtain ⟨found, hfound, rfl⟩ := h.found
  obtain ⟨ds, hds, p', hp', hfragments⟩ := exists_right_of_forall₂ hfound hn
  obtain rfl := Except.ok.inj (hp.symm.trans hp')
  obtain ⟨d, hd, hdiscovered⟩ := exists_right_of_forall₂ hfragments hf
  exact ⟨d, (List.mem_insertionSort _).2 (List.mem_flatten.2 ⟨ds, hds, hd⟩), hdiscovered⟩

/-- The nodes of a discovered document parse, and no path occurs twice in them. The paths were
compared in path order, and sorting does not change which of them are there. -/
theorem DocumentDiscovered.valid {nodes : List SourceNode} {ds : List DiscoveredFragment}
    (h : DocumentDiscovered nodes ds) : ValidFragments nodes := by
  obtain ⟨found, hfound, rfl⟩ := h.found
  have hpaths : ∃ ps, List.Forall₂ Parses nodes ps ∧
      fragmentPaths ps = found.flatten.map DiscoveredFragment.path := by
    clear h
    induction hfound with
    | nil => exact ⟨[], .nil, rfl⟩
    | cons hn _ ih =>
      obtain ⟨p, hp, hds⟩ := hn
      obtain ⟨ps, hps, hpaths⟩ := ih
      refine ⟨p :: ps, .cons hp hps, ?_⟩
      have hnode := map_eq_of_forall₂ (f := FragmentView.path) (g := DiscoveredFragment.path) hds
        fun f d hd => hd.path.symm
      rw [fragmentPaths, List.flatMap_cons, List.map_append, hnode, List.flatten_cons,
        List.map_append, ← hpaths]
      rfl
  obtain ⟨ps, hps, hpaths⟩ := hpaths
  refine ⟨ps, hps, ?_⟩
  rw [hpaths]
  refine (List.Perm.nodup_iff ?_).1 (h.sorted.imp ne_of_lt)
  exact (List.perm_insertionSort _ _).map _

/-- Nodes whose fragments are discovered, fragment by fragment, as those of a discovered document
make up a document that is discovered as well. -/
theorem discoverFragments_of_aligned {R : DiscoveredFragment → DiscoveredFragment → Prop}
    (hR : ∀ d d', R d d' → d.path = d'.path) {nodes nodes' : List SourceNode}
    {ds : List DiscoveredFragment} (h : DocumentDiscovered nodes ds)
    (haligned : List.Forall₂ (fun n n' => ∀ ds, NodeDiscovered n ds →
      ∃ ds', NodeDiscovered n' ds' ∧ List.Forall₂ R ds ds') nodes nodes') :
    ∃ ds', DocumentDiscovered nodes' ds' ∧ List.Forall₂ R ds ds' := by
  obtain ⟨found, hfound, rfl⟩ := h.found
  have hfound' : ∃ found', List.Forall₂ NodeDiscovered nodes' found' ∧
      List.Forall₂ (List.Forall₂ R) found found' := by
    clear h
    induction haligned generalizing found with
    | nil =>
      cases hfound
      exact ⟨[], .nil, .nil⟩
    | cons hn _ ih =>
      cases hfound with
      | cons hds hfound =>
        obtain ⟨ds', hds', hR'⟩ := hn _ hds
        obtain ⟨found', hfound', hRs⟩ := ih _ hfound
        exact ⟨ds' :: found', .cons hds' hfound', .cons hR' hRs⟩
  obtain ⟨found', hfound', hRs⟩ := hfound'
  have hsort : List.Forall₂ R
      (found.flatten.insertionSort fun left right => left.path ≤ right.path)
      (found'.flatten.insertionSort fun left right => left.path ≤ right.path) :=
    forall₂_insertionSort (fun a b a' b' ha hb => by rw [hR a a' ha, hR b b' hb])
      (List.rel_flatten hRs)
  have hpaths := (map_eq_of_forall₂ hsort hR).symm
  refine ⟨_, ⟨⟨found', hfound', rfl⟩, ?_, ?_⟩, hsort⟩
  · rw [hpaths]
    exact h.sorted
  · rw [hpaths]
    exact h.prefixFree

end Zwirn.Sync
