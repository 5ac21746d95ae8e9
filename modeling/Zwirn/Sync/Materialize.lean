import Zwirn.Adls.RoundTrip
import Zwirn.Fragment.ReadBack
import Zwirn.Sync.Engine

/-!
# The prepared document

A materialized document has the nodes of the old one, each with the text its updates give
(`materializeDocument_spec`), and it was checked that no fragment path occurs twice in it. So it
has the fragments of the old document: `materializeDocument_keeps`.
-/

namespace Zwirn.Sync

open Lib Fragment Adls

/-! ## Nodes -/

/-- The search finds the node with an index. The sources are in the order of their indexes, and no
index occurs twice. -/
theorem findNode_eq_some {document : Document} (ho : document.Ordered) {i : Nat} {n : SourceNode} :
    findNode document i = some n ↔ n ∈ document.sources ∧ n.handle.index = i := by
  unfold findNode
  have hunique : ∀ {a b : SourceNode}, a ∈ document.sources → b ∈ document.sources →
      a.handle.index = b.handle.index → a = b := by
    intro a b ha hb hab
    obtain ⟨k, hk⟩ := List.getElem?_of_mem ha
    obtain ⟨l, hl⟩ := List.getElem?_of_mem hb
    obtain rfl := ho.index_inj hk hl hab
    exact Option.some.inj (hk.symm.trans hl)
  constructor
  · intro h
    split at h
    · next index hindex =>
      obtain ⟨a, ha, heq⟩ := binarySearchBy_ok hindex
      rw [ha] at h
      cases h
      exact ⟨List.mem_of_getElem? ha, compare_eq_iff_eq.1 heq⟩
    · cases h
  · intro h
    obtain ⟨hmem, rfl⟩ := h
    obtain ⟨k, n', hk, hget, heq⟩ := ho.search (List.mem_map_of_mem hmem)
    rw [hk]
    simp only [hget]
    rw [hunique (List.mem_of_getElem? hget) hmem (by rw [heq])]

section
variable [Sha256]

/-- The node `step.1` and what its rewritten source is. -/
structure Rewrites (document : Document) (node : Nat × List FragmentUpdate)
    (step : SourceNode × Cow Str) : Prop where
  found : findNode document node.1 = some step.1
  rewritten : ∃ p, ParsedSource.parse step.1.kind step.1.source = .ok p ∧
    p.rewrite node.2 = .ok step.2

/-- The new text of a node, if there is one. -/
def newText (step : SourceNode × Cow Str) : Option (NodeHandle × Str) :=
  match step.2 with
  | .owned text => some (step.1.handle, text)
  | .borrowed _ => none

/-- A node is rewritten as the specification says, and its text is kept if it is a new one. A text
that is borrowed is the old one. -/
theorem rewriteNode_eq_ok {document : Document} {rewritten rewritten' : List (NodeHandle × Str)}
    {node : Nat × List FragmentUpdate} :
    rewriteNode document rewritten node = .ok rewritten' ↔
      ∃ step, Rewrites document node step ∧ rewritten' = rewritten ++ (newText step).toList := by
  simp only [rewriteNode, Except.bind_eq_ok, okOr_eq_ok, mapError_eq_ok]
  constructor
  · intro h
    obtain ⟨n, hn, p, hp, out, hout, h⟩ := h
    refine ⟨(n, out), ⟨hn, p, hp, hout⟩, ?_⟩
    cases out with
    | owned text => exact (Except.pure_eq_ok.1 h).symm
    | borrowed text => simpa [newText] using (Except.pure_eq_ok.1 h).symm
  · intro h
    obtain ⟨⟨n, out⟩, ⟨hn, p, hp, hout⟩, rfl⟩ := h
    refine ⟨n, hn, p, hp, out, hout, ?_⟩
    cases out with
    | owned text => rfl
    | borrowed text => simp [newText]

/-- The loop over the updated nodes takes one step for each. The induction is on the nodes, with the
texts that were kept before. -/
theorem rewriteNodes_eq_ok {document : Document} {rewritten rewritten' : List (NodeHandle × Str)}
    {nodes : List (Nat × List FragmentUpdate)} :
    nodes.foldlM (rewriteNode document) rewritten = .ok rewritten' ↔
      ∃ steps, List.Forall₂ (Rewrites document) nodes steps ∧
        rewritten' = rewritten ++ steps.filterMap newText := by
  induction nodes generalizing rewritten with
  | nil =>
    simp only [List.foldlM_nil, Except.pure_eq_ok, List.forall₂_nil_left_iff, exists_eq_left,
      List.filterMap_nil, List.append_nil]
    exact eq_comm
  | cons node nodes ih =>
    simp only [List.foldlM_cons, Except.bind_eq_ok, rewriteNode_eq_ok, ih]
    constructor
    · intro h
      obtain ⟨_, ⟨step, hstep, rfl⟩, steps, hsteps, rfl⟩ := h
      refine ⟨step :: steps, .cons hstep hsteps, ?_⟩
      cases h : newText step <;> simp [h]
    · intro h
      obtain ⟨steps, hsteps, rfl⟩ := h
      cases hsteps with
      | @cons _ step _ steps hstep hsteps =>
        refine ⟨_, ⟨step, hstep, rfl⟩, steps, hsteps, ?_⟩
        cases h : newText step <;> simp [h]

section
variable {document : Document} {nodes : List (Nat × List FragmentUpdate)}
  {steps : List (SourceNode × Cow Str)}

/-- The steps stand in the order of the nodes. They are collected from a map over the indexes of the
nodes. -/
theorem Rewrites.sorted (ho : document.Ordered) (h : List.Forall₂ (Rewrites document) nodes steps)
    (hnodes : nodes.Pairwise (·.1 < ·.1)) :
    steps.Pairwise fun a b => a.1.handle.index < b.1.handle.index := by
  induction h with
  | nil => exact .nil
  | cons hstep hsteps ih =>
    rw [List.pairwise_cons] at hnodes ⊢
    refine ⟨fun step' hstep' => ?_, ih hnodes.2⟩
    obtain ⟨node', hnode', hrewrites⟩ := exists_left_of_forall₂ hsteps hstep'
    have hlt := hnodes.1 node' hnode'
    rw [((findNode_eq_some ho).1 hstep.found).2, ((findNode_eq_some ho).1 hrewrites.found).2]
    exact hlt

end

/-- What the source of a node is after the updates of the node. -/
def NodeText (updates : Option (List FragmentUpdate)) (n : SourceNode) (text : Str) : Prop :=
  match updates with
  | none => text = n.source
  | some updates => ∃ p out, ParsedSource.parse n.kind n.source = .ok p ∧
      p.rewrite updates = .ok out ∧ text = out.value

/-- The text of a node has the sections of its source, each with what the updates make of its
fragment. -/
theorem NodeText.sections {updates : Option (List FragmentUpdate)} {n : SourceNode} {text : Str}
    (h : NodeText updates n text) {p : ParsedSource}
    (hp : ParsedSource.parse n.kind n.source = .ok p) {ss : List FragmentSection} {tail : List Line}
    (hs : p.Sections n.kind ss tail) : Addressed (updates.getD []) p.view ∧
      text = (ss.flatMap fun s => s.updatedText (s.fragment.wanted (updates.getD []))) ++
        joinLines tail := by
  cases updates with
  | none =>
    obtain ⟨hsource, -⟩ := ParsedSource.parse_eq_ok.1 hp
    have hnone : p.rewrite [] = .ok (.borrowed p.source) := rfl
    obtain ⟨haddressed, hvalue⟩ := ParsedSource.rewrite_value hs hnone
    exact ⟨haddressed, by rw [show text = n.source from h, ← hsource]; exact hvalue⟩
  | some updates =>
    obtain ⟨p', out, hp', hout, rfl⟩ := h
    obtain rfl := Except.ok.inj (hp.symm.trans hp')
    exact ParsedSource.rewrite_value hs hout

/-- The node `n` after the updates of all nodes. -/
structure NodeUpdated (nodeUpdates : OrdMap Nat (List FragmentUpdate)) (n n' : SourceNode) :
    Prop where
  index : n'.handle.index = n.handle.index
  kind : n'.kind = n.kind
  text : NodeText (nodeUpdates.find? n.handle.index) n n'.source

section
variable {document : Document} {nodes : List (Nat × List FragmentUpdate)}
  {steps : List (SourceNode × Cow Str)}

omit [Sha256] in
/-- There is a new text exactly where the rewriting did not give the old one back. -/
theorem newText_eq_some {step : SourceNode × Cow Str} {handle : NodeHandle} {text : Str} :
    newText step = some (handle, text) ↔ step.2 = .owned text ∧ step.1.handle = handle := by
  obtain ⟨n, out⟩ := step
  cases out with
  | owned t => simp [newText, and_comm]
  | borrowed t => simp [newText]

omit [Sha256] in
/-- The new texts stand in the order of their nodes. -/
theorem newText_sorted (h : steps.Pairwise fun a b => a.1.handle.index < b.1.handle.index) :
    (steps.filterMap newText).Pairwise fun r r' => r.1.index < r'.1.index := by
  rw [List.pairwise_filterMap]
  refine h.imp fun hlt r hr r' hr' => ?_
  obtain ⟨handle, text⟩ := r
  obtain ⟨handle', text'⟩ := r'
  rw [newText_eq_some] at hr hr'
  rwa [← hr.2, ← hr'.2]

omit [Sha256] in
/-- The new texts belong to different nodes. -/
theorem newText_nodup (h : steps.Pairwise fun a b => a.1.handle.index < b.1.handle.index) :
    ((steps.filterMap newText).map (·.1)).Nodup := by
  rw [List.Nodup, List.pairwise_map]
  refine (newText_sorted h).imp fun hlt heq => ?_
  rw [heq] at hlt
  exact Nat.lt_irrefl _ hlt

/-- The new texts belong to nodes of the document. -/
theorem newText_handles (ho : document.Ordered) (h : List.Forall₂ (Rewrites document) nodes steps) :
    ∀ r ∈ steps.filterMap newText, r.1 ∈ document.sources.map (·.handle) := by
  intro r hr
  obtain ⟨step, hstep, hr⟩ := List.mem_filterMap.1 hr
  obtain ⟨node, -, hrewrites⟩ := exists_left_of_forall₂ h hstep
  refine List.mem_map.2 ⟨step.1, ((findNode_eq_some ho).1 hrewrites.found).1, ?_⟩
  exact (newText_eq_some.1 hr).2

omit [Sha256] in
/-- What a node is replaced with is the new text of its step. The steps are about different nodes,
so the handle belongs to one of them. -/
theorem wanted_newText (h : steps.Pairwise fun a b => a.1.handle.index < b.1.handle.index)
    {step : SourceNode × Cow Str} (hstep : step ∈ steps) :
    Adls.wanted (steps.filterMap newText) step.1 = (newText step).map (·.2) := by
  have hinj : ∀ step' ∈ steps, step'.1.handle = step.1.handle → step' = step := by
    intro step' hstep' heq
    refine List.inj_on_of_nodup_map (f := fun step => step.1.handle.index) ?_ hstep' hstep
      (by simp only [heq])
    exact List.pairwise_map.2 (h.imp fun hlt => Nat.ne_of_lt hlt)
  unfold Adls.wanted
  cases hnew : newText step with
  | none =>
    rw [Option.map_none, Option.eq_none_iff_forall_ne_some]
    intro text hlookup
    obtain ⟨step', hstep', hnew'⟩ := List.mem_filterMap.1 (Adls.mem_of_lookup hlookup)
    rw [hinj step' hstep' (newText_eq_some.1 hnew').2, hnew] at hnew'
    cases hnew'
  | some r =>
    obtain ⟨handle, text⟩ := r
    have hmem : (handle, text) ∈ steps.filterMap newText := List.mem_filterMap.2 ⟨_, hstep, hnew⟩
    rw [(newText_eq_some.1 hnew).2, Adls.lookup_of_mem (newText_nodup h) hmem, Option.map_some]

/-- A step leaves its node with the text of the rewritten source. -/
theorem Rewrites.text {node : Nat × List FragmentUpdate} {step : SourceNode × Cow Str}
    (h : Rewrites document node step) :
    NodeText (some node.2) step.1 (((newText step).map (·.2)).getD step.1.source) := by
  obtain ⟨p, hp, hout⟩ := h.rewritten
  refine ⟨p, step.2, hp, hout, ?_⟩
  obtain ⟨hsource, -⟩ := ParsedSource.parse_eq_ok.1 hp
  obtain ⟨-, ⟨-, hstep⟩ | ⟨-, -, hstep⟩⟩ := ParsedSource.rewrite_eq_ok.1 hout
  · rw [newText, hstep]
    exact hsource.symm
  · rw [newText, hstep]
    rfl

/-- Every node has the text its updates give it, whether it was rewritten or not. A node without
updates is no step, and a step without a new text has the old one. -/
theorem nodeText_wanted {nodeUpdates : OrdMap Nat (List FragmentUpdate)} (ho : document.Ordered)
    (h : List.Forall₂ (Rewrites document) nodeUpdates.entries steps) {n : SourceNode}
    (hn : n ∈ document.sources) : NodeText (nodeUpdates.find? n.handle.index) n
      ((Adls.wanted (steps.filterMap newText) n).getD n.source) := by
  cases hfind : nodeUpdates.find? n.handle.index with
  | some updates =>
    obtain ⟨step, hstep, hrewrites⟩ := exists_right_of_forall₂ h (OrdMap.find?_eq_some.1 hfind)
    obtain rfl : step.1 = n :=
      Option.some.inj (hrewrites.found.symm.trans ((findNode_eq_some ho).2 ⟨hn, rfl⟩))
    rw [wanted_newText (Rewrites.sorted ho h nodeUpdates.sorted) hstep]
    exact hrewrites.text
  | none =>
    have hwanted : Adls.wanted (steps.filterMap newText) n = none := by
      rw [Adls.wanted, Option.eq_none_iff_forall_ne_some]
      intro text hlookup
      obtain ⟨step, hstep, hnew⟩ := List.mem_filterMap.1 (Adls.mem_of_lookup hlookup)
      obtain ⟨node, hnode, hrewrites⟩ := exists_left_of_forall₂ h hstep
      have hindex := ((findNode_eq_some ho).1 hrewrites.found).2
      rw [(newText_eq_some.1 hnew).2] at hindex
      exact OrdMap.find?_eq_none.1 hfind node.2 (by rwa [hindex])
    rw [hwanted]
    rfl

end

end

/-! ## The check of the new document -/

/-- The fragments of a node. -/
def Parses (n : SourceNode) (p : ParsedSource) : Prop := ParsedSource.parse n.kind n.source = .ok p

/-- The paths of all fragments of a document, node after node. -/
def fragmentPaths (ps : List ParsedSource) : List FragmentPath :=
  (ps.flatMap ParsedSource.view).map FragmentView.path

/-- Paths are entered when they are different from each other and from those entered before. The
induction is on the fragments, with the paths that were entered before. -/
theorem enterPaths_isOk {paths : OrdMap FragmentPath Unit} {fragments : List FragmentView} :
    (∃ paths', fragments.foldlM enterPath paths = .ok paths') ↔
      (fragments.map FragmentView.path).Nodup ∧ ∀ f ∈ fragments, f.path ∉ paths.keys := by
  induction fragments generalizing paths with
  | nil => simp [Except.pure_eq_ok]
  | cons f fragments ih =>
    have hnone : (paths.find? f.path).isNone = true ↔ f.path ∉ paths.keys := by
      rw [Option.isNone_iff_eq_none, OrdMap.mem_keys, Option.eq_none_iff_forall_ne_some, not_exists]
    simp only [List.foldlM_cons, enterPath, Except.bind_eq_ok, require_eq_ok, Except.pure_eq_ok,
      exists_const, hnone]
    constructor
    · intro h
      obtain ⟨paths', _, ⟨hnew, rfl⟩, h⟩ := h
      obtain ⟨hnodup, hall⟩ := ih.1 ⟨paths', h⟩
      simp only [OrdMap.mem_keys_insert, not_or] at hall
      rw [List.map_cons, List.nodup_cons, List.forall_mem_cons]
      refine ⟨⟨?_, hnodup⟩, hnew, fun f' hf' => (hall f' hf').2⟩
      intro hmem
      obtain ⟨f', hf', heq⟩ := List.mem_map.1 hmem
      exact (hall f' hf').1 heq
    · intro h
      rw [List.map_cons, List.nodup_cons, List.forall_mem_cons] at h
      obtain ⟨⟨hne, hnodup⟩, hnew, hall⟩ := h
      obtain ⟨paths', hpaths'⟩ := (@ih (paths.insert f.path ())).2 ⟨hnodup, fun f' hf' => by
        rw [OrdMap.mem_keys_insert, not_or]
        exact ⟨fun heq => hne (List.mem_map.2 ⟨f', hf', heq⟩), hall f' hf'⟩⟩
      exact ⟨paths', _, ⟨hnew, rfl⟩, hpaths'⟩

/-- Entering the nodes is entering the fragments of all of them. So a path may not occur twice in
different nodes either. -/
theorem enterNodes_eq_ok {paths paths' : OrdMap FragmentPath Unit} {nodes : List SourceNode} :
    nodes.foldlM enterNode paths = .ok paths' ↔ ∃ ps, List.Forall₂ Parses nodes ps ∧
      (ps.flatMap ParsedSource.view).foldlM enterPath paths = .ok paths' := by
  induction nodes generalizing paths with
  | nil => simp
  | cons n nodes ih =>
    simp only [List.foldlM_cons, enterNode, Except.bind_eq_ok, mapError_eq_ok, ih]
    constructor
    · intro h
      obtain ⟨_, ⟨p, hp, h₁⟩, ps, hps, h₂⟩ := h
      exact ⟨p :: ps, .cons hp hps, foldlM_append_eq_ok.2 ⟨_, h₁, h₂⟩⟩
    · intro h
      obtain ⟨_, hps, h⟩ := h
      cases hps with
      | cons hp hps =>
        obtain ⟨_, h₁, h₂⟩ := foldlM_append_eq_ok.1 h
        exact ⟨_, ⟨_, hp, h₁⟩, _, hps, h₂⟩

/-- A document is valid when each of its nodes parses and no path occurs twice in it. -/
def ValidFragments (nodes : List SourceNode) : Prop :=
  ∃ ps, List.Forall₂ Parses nodes ps ∧ (fragmentPaths ps).Nodup

/-- A prepared document is accepted exactly if it parses and its fragments are valid. It is the same
check that discovery makes of a document. -/
theorem validatePreparedDocument_eq_ok {bytes : Bytes} {u : Unit} :
    validatePreparedDocument bytes = .ok u ↔
      ∃ document, Document.parse 4 bytes = .ok document ∧ ValidFragments document.sources := by
  simp only [validatePreparedDocument, Except.bind_eq_ok, mapError_eq_ok, Except.pure_eq_ok,
    enterNodes_eq_ok, ValidFragments]
  constructor
  · intro h
    obtain ⟨document, hparse, paths, ⟨ps, hps, henter⟩, -⟩ := h
    exact ⟨document, hparse, ps, hps, (enterPaths_isOk.1 ⟨paths, henter⟩).1⟩
  · intro h
    obtain ⟨document, hparse, ps, hps, hnodup⟩ := h
    obtain ⟨paths, henter⟩ := enterPaths_isOk.2 ⟨hnodup, fun f _ => by
      show f.path ∉ OrdMap.empty.keys
      simp [OrdMap.empty, OrdMap.keys]⟩
    exact ⟨document, hparse, paths, ⟨ps, hps, henter⟩, trivial⟩

/-- A node of a valid document parses, without a path twice. -/
theorem ValidFragments.node {nodes : List SourceNode} (h : ValidFragments nodes) {n : SourceNode}
    (hn : n ∈ nodes) : ∃ p, Parses n p ∧ (p.view.map FragmentView.path).Nodup := by
  obtain ⟨ps, hps, hnodup⟩ := h
  obtain ⟨p, hp, hparses⟩ := exists_right_of_forall₂ hps hn
  refine ⟨p, hparses, hnodup.sublist ?_⟩
  refine List.Sublist.map FragmentView.path ?_
  exact List.sublist_flatten_of_mem (List.mem_map_of_mem hp)

/-! ## The new document -/

/-- A parsed buffer parses to the same nodes whatever the identity of the document. -/
theorem parse_document {d : Nat} {bytes : Bytes} {document : Document}
    (h : Document.parse d bytes = .ok document) (d' : Nat) : ∃ document',
      Document.parse d' bytes = .ok document' ∧
        document'.sources = document.sources.map (SourceNode.replaced d' []) := by
  have hborrowed : document.rewrite d' [] = .ok (.borrowed document.bytes) := rfl
  have hnodup : (([] : List (NodeHandle × Str)).map (·.1)).Nodup := List.nodup_nil
  have := (Document.rewritten_of_rewrite h hnodup (by simp) hborrowed).parses d'
  rwa [Cow.value, Document.parse_bytes h] at this

/-- What the check says of a document holds whatever the identity it is parsed with. -/
theorem validFragments_of_validate {bytes : Bytes} {u : Unit}
    (h : validatePreparedDocument bytes = .ok u) {d : Nat} {document : Document}
    (hdocument : Document.parse d bytes = .ok document) : ValidFragments document.sources := by
  obtain ⟨document₄, hparse, ps, hps, hnodup⟩ := validatePreparedDocument_eq_ok.1 h
  obtain ⟨document', hparse', hsources⟩ := parse_document hparse d
  obtain rfl := Except.ok.inj (hdocument.symm.trans hparse')
  refine ⟨ps, ?_, hnodup⟩
  rw [hsources, List.forall₂_map_left_iff]
  exact hps

section
variable [Sha256]

/-- A materialized document parses to the old nodes, each after its updates. Where nothing is
rewritten the document stays as it was, and its nodes are their own updates. -/
theorem materializeDocument_spec {bytes : Bytes} {nodeUpdates : OrdMap Nat (List FragmentUpdate)}
    {out : Option Bytes} (h : materializeDocument bytes nodeUpdates = .ok out) {d : Nat}
    {document : Document} (hdocument : Document.parse d bytes = .ok document) (d' : Nat) :
    ∃ document', Document.parse d' (out.getD bytes) = .ok document' ∧
      List.Forall₂ (NodeUpdated nodeUpdates) document.sources document'.sources := by
  simp only [materializeDocument, Except.bind_eq_ok, mapError_eq_ok, rewriteNodes_eq_ok,
    List.nil_append] at h
  obtain ⟨document₂, hparse, rewritten, ⟨steps, hsteps, rfl⟩, new, hnew, h⟩ := h
  have ho := (Document.parse_ordered hparse).1
  have hsorted := Rewrites.sorted ho hsteps nodeUpdates.sorted
  have hfrom := newText_handles ho hsteps
  have hrewritten := Document.rewritten_of_rewrite hparse (newText_nodup hsorted) hfrom hnew
  have hvalue : new.value = out.getD bytes := by
    cases new with
    | borrowed value =>
      obtain ⟨-, hborrowed⟩ | ⟨-, -, _, _, -, -, howned⟩ :=
        (Document.rewrite_eq_ok ho (newText_nodup hsorted) hfrom).1 hnew
      · rw [← Except.pure_eq_ok.1 h, hborrowed]
        exact Document.parse_bytes hparse
      · cases howned
    | owned value =>
      obtain ⟨-, -, h⟩ := Except.bind_eq_ok.1 h
      rw [← Except.pure_eq_ok.1 h]
      rfl
  rw [hvalue] at hrewritten
  obtain ⟨document', hparse', hsources⟩ := hrewritten.parses d'
  refine ⟨document', hparse', ?_⟩
  obtain ⟨document₂', hparse₂, hsources₂⟩ := parse_document hdocument 2
  obtain rfl : document₂ = document₂' := Except.ok.inj (hparse.symm.trans hparse₂)
  rw [hsources, hsources₂, List.map_map]
  refine forall₂_map_right_of fun n hn => ⟨rfl, rfl, ?_⟩
  have hn₂ : n.replaced 2 [] ∈ document₂.sources := by
    rw [hsources₂]
    exact List.mem_map_of_mem hn
  exact nodeText_wanted ho hsteps hn₂

/-- What is materialized depends only on what the updates make of the fragments of the nodes. So
updates that change nothing may be left out, as long as no other node is named. -/
theorem materializeDocument_congr {bytes : Bytes}
    {nodeUpdates nodeUpdates' : OrdMap Nat (List FragmentUpdate)} {out : Option Bytes}
    (h : materializeDocument bytes nodeUpdates = .ok out)
    (hkeys : ∀ i ∈ nodeUpdates'.keys, i ∈ nodeUpdates.keys)
    (hsame : ∀ document, Document.parse 2 bytes = .ok document → ∀ n ∈ document.sources,
      ∀ p, Parses n p → Addressed ((nodeUpdates'.find? n.handle.index).getD []) p.view ∧
        ∀ f ∈ p.view, f.wanted ((nodeUpdates'.find? n.handle.index).getD []) =
          f.wanted ((nodeUpdates.find? n.handle.index).getD [])) :
    materializeDocument bytes nodeUpdates' = .ok out := by
  simp only [materializeDocument, Except.bind_eq_ok, mapError_eq_ok, rewriteNodes_eq_ok,
    List.nil_append] at h ⊢
  obtain ⟨document, hparse, rewritten, ⟨steps, hsteps, rfl⟩, new, hnew, h⟩ := h
  have ho := (Document.parse_ordered hparse).1
  -- the step of a node is the step of the updates that are left of it
  have hstep : ∀ node ∈ nodeUpdates.entries, ∀ step, Rewrites document node step →
      ∃ p, Parses step.1 p ∧ p.rewrite ((nodeUpdates'.find? node.1).getD []) = .ok step.2 := by
    intro node hnode step hrewrites
    obtain ⟨hn, hindex⟩ := (findNode_eq_some ho).1 hrewrites.found
    obtain ⟨p, hp, hout⟩ := hrewrites.rewritten
    obtain ⟨haddressed, hwanted⟩ := hsame document hparse step.1 hn p hp
    rw [hindex, OrdMap.find?_eq_some.2 hnode] at hwanted
    rw [hindex] at haddressed
    exact ⟨p, hp, ParsedSource.rewrite_congr hout haddressed hwanted⟩
  have hexists : ∀ node ∈ nodeUpdates'.entries, ∃ step ∈ steps, Rewrites document node step := by
    intro node hnode
    have hfind := OrdMap.find?_eq_some.2 hnode
    obtain ⟨updates, hupdates⟩ := OrdMap.mem_keys.1 (hkeys node.1 (List.mem_map_of_mem hnode))
    obtain ⟨step, hmem, hrewrites⟩ :=
      exists_right_of_forall₂ hsteps (OrdMap.find?_eq_some.1 hupdates)
    obtain ⟨p, hp, hout⟩ := hstep _ (OrdMap.find?_eq_some.1 hupdates) step hrewrites
    rw [hfind] at hout
    exact ⟨step, hmem, hrewrites.found, p, hp, hout⟩
  obtain ⟨steps', hsteps'⟩ := exists_forall₂_of_forall_exists hexists
  refine ⟨document, hparse, _, ⟨steps', hsteps'.imp fun _ _ hboth => hboth.2, rfl⟩, new, ?_, h⟩
  suffices heq : steps'.filterMap newText = steps.filterMap newText by rwa [heq]
  refine List.Pairwise.eq_of_mem_iff (r := fun r r' => r.1.index < r'.1.index)
    (newText_sorted (Rewrites.sorted ho (hsteps'.imp fun _ _ hboth => hboth.2) nodeUpdates'.sorted))
    (newText_sorted (Rewrites.sorted ho hsteps nodeUpdates.sorted)) fun r => ?_
  rw [List.mem_filterMap, List.mem_filterMap]
  refine ⟨fun hr => ?_, fun hr => ?_⟩
  · obtain ⟨step', hstep', hr⟩ := hr
    obtain ⟨-, -, hmem, -⟩ := exists_left_of_forall₂ hsteps' hstep'
    exact ⟨step', hmem, hr⟩
  · obtain ⟨step, hmem, hr⟩ := hr
    obtain ⟨node, hnode, hrewrites⟩ := exists_left_of_forall₂ hsteps hmem
    obtain ⟨p, hp, hout⟩ := hstep node hnode step hrewrites
    cases hfind : nodeUpdates'.find? node.1 with
    | none =>
      rw [hfind] at hout
      have hborrowed : step.2 = .borrowed p.source := Except.ok.inj (hout.symm.trans rfl)
      rw [newText, hborrowed] at hr
      cases hr
    | some updates' =>
      obtain ⟨step', hmem', -, hrewrites'⟩ :=
        exists_right_of_forall₂ hsteps' (OrdMap.find?_eq_some.1 hfind)
      refine ⟨step', hmem', ?_⟩
      obtain ⟨p', hp', hout'⟩ := hrewrites'.rewritten
      have hnode := Option.some.inj (hrewrites'.found.symm.trans hrewrites.found)
      rw [hnode] at hp'
      obtain rfl := Except.ok.inj (hp.symm.trans hp')
      rw [hfind] at hout
      rw [← hr, newText, newText, hnode, Except.ok.inj (hout'.symm.trans hout)]

/-- What is materialized was accepted before it was returned. That is the last stage of the
materialization. -/
theorem validate_of_materialize {bytes bytes' : Bytes}
    {nodeUpdates : OrdMap Nat (List FragmentUpdate)}
    (h : materializeDocument bytes nodeUpdates = .ok (some bytes')) :
    validatePreparedDocument bytes' = .ok () := by
  simp only [materializeDocument, Except.bind_eq_ok, mapError_eq_ok] at h
  obtain ⟨_, _, _, _, new, _, h⟩ := h
  cases new with
  | borrowed value => cases h
  | owned value =>
    obtain ⟨_, hvalidate, h⟩ := Except.bind_eq_ok.1 h
    cases h
    exact hvalidate

/-! ## Its fragments -/

/-- What the updates of a node leave of one of its fragments. Its path is kept, its source unless it
is replaced, and its hash unless an update names it. -/
structure FragmentKept (updates : List FragmentUpdate) (f f' : FragmentView) : Prop where
  path : f'.path = f.path
  source : (∀ source, .replace f.path source ∉ updates) → f'.source = f.source
  baseline : f.path ∉ updates.map FragmentUpdate.path → f'.baseline = f.baseline
  record : .record f.path ∈ updates →
    f'.source = f.source ∧ f'.baseline = some (.ofText f.source)

/-- What the updates of a document leave of one of its nodes. Its index and its kind are kept, and
it has the same fragments in the same order. -/
structure NodeKept (nodeUpdates : OrdMap Nat (List FragmentUpdate)) (n n' : SourceNode) :
    Prop where
  index : n'.handle.index = n.handle.index
  kind : n'.kind = n.kind
  fragments : ∃ p p', Parses n p ∧ Parses n' p' ∧
    List.Forall₂ (FragmentKept ((nodeUpdates.find? n.handle.index).getD [])) p.view p'.view

/-- What is read of a fragment after an update keeps what the update does not name. A replacement
can lose its first LF behind a CR, so its source is not said to be kept. -/
theorem fragmentKept_reread {kind : NodeKind} {p : ParsedSource}
    (hparse : ParsedSource.parse kind p.source = .ok p) {updates : List FragmentUpdate}
    (h : Addressed updates p.view) {f : ParsedFragment p.source} (hf : f ∈ p.fragments) :
    FragmentKept updates f.view (f.reread p.source (f.view.wanted updates)) := by
  have hkeep : ∀ baseline, f.reread p.source ⟨f.view.path, baseline, f.view.source⟩ =
      ⟨f.view.path, baseline, f.view.source⟩ := by
    intro baseline
    exact if_neg (ParsedSource.reread_view hparse hf)
  have hnone : f.view.path ∉ updates.map FragmentUpdate.path →
      f.reread p.source (f.view.wanted updates) = f.view := by
    intro hno
    rw [FragmentView.wanted_of_not_mem hno]
    exact hkeep f.view.baseline
  have hrecord : .record f.view.path ∈ updates → f.reread p.source (f.view.wanted updates) =
      ⟨f.view.path, some (.ofText f.view.source), f.view.source⟩ := by
    intro hu
    rw [FragmentView.wanted_of_mem h.nodup hu rfl]
    exact hkeep (some (.ofText f.view.source))
  constructor
  case path =>
    rw [← FragmentView.wanted_path updates f.view, FragmentPlace.reread]
    split <;> rfl
  case baseline =>
    intro hno
    rw [hnone hno]
  case record =>
    intro hu
    rw [hrecord hu]
    exact ⟨rfl, rfl⟩
  case source =>
    intro hno
    by_cases hmem : f.view.path ∈ updates.map FragmentUpdate.path
    · obtain ⟨u, hu, hpath⟩ := List.mem_map.1 hmem
      cases u with
      | record path =>
        obtain rfl : path = f.view.path := hpath
        rw [hrecord hu]
      | replace path source =>
        obtain rfl : path = f.view.path := hpath
        exact absurd hu (hno source)
    · rw [hnone hmem]

/-- The text of an updated node is the one that the updates make of what was parsed, also where
there are none. -/
theorem NodeUpdated.rewritten {nodeUpdates : OrdMap Nat (List FragmentUpdate)} {n n' : SourceNode}
    (h : NodeUpdated nodeUpdates n n') {p' : ParsedSource} (hp' : Parses n' p')
    {updates : List FragmentUpdate}
    (hupdates : updates = (nodeUpdates.find? n.handle.index).getD []) :
    ∃ p out, Parses n p ∧ ParsedSource.parse n.kind p.source = .ok p ∧
      p.rewrite updates = .ok out ∧ ParsedSource.parse n.kind out.value = .ok p' := by
  have htext := h.text
  cases hfind : nodeUpdates.find? n.handle.index with
  | none =>
    rw [hfind] at htext hupdates
    obtain rfl : updates = [] := hupdates
    have hp : Parses n p' := by
      rw [Parses, ← h.kind, ← show n'.source = n.source from htext]
      exact hp'
    obtain ⟨hsource, -⟩ := ParsedSource.parse_eq_ok.1 hp
    have hparse : ParsedSource.parse n.kind p'.source = .ok p' := by rwa [hsource]
    exact ⟨p', .borrowed p'.source, hp, hparse, rfl, hparse⟩
  | some updates' =>
    rw [hfind] at htext hupdates
    obtain rfl : updates = updates' := hupdates
    obtain ⟨p, out, hp, hout, hvalue⟩ := htext
    obtain ⟨hsource, -⟩ := ParsedSource.parse_eq_ok.1 hp
    have hparse : ParsedSource.parse n.kind p.source = .ok p := by rwa [hsource]
    have hparse' : ParsedSource.parse n.kind out.value = .ok p' := by
      rw [← hvalue, ← h.kind]
      exact hp'
    exact ⟨p, out, hp, hparse, hout, hparse'⟩

/-- An updated node that parses, without a path twice, has the fragments of the node, each with what
the updates make of it. -/
theorem NodeUpdated.view_eq {nodeUpdates : OrdMap Nat (List FragmentUpdate)} {n n' : SourceNode}
    (h : NodeUpdated nodeUpdates n n') {p' : ParsedSource} (hp' : Parses n' p')
    (hnodup : (p'.view.map FragmentView.path).Nodup) {updates : List FragmentUpdate}
    (hupdates : updates = (nodeUpdates.find? n.handle.index).getD []) :
    ∃ p, Parses n p ∧ ParsedSource.parse n.kind p.source = .ok p ∧ Addressed updates p.view ∧
      p'.view = p.fragments.map fun f => f.reread p.source (f.view.wanted updates) := by
  obtain ⟨p, out, hp, hparse, hout, hparse'⟩ := h.rewritten hp' hupdates
  exact ⟨p, hp, hparse, (ParsedSource.rewrite_eq_ok.1 hout).1,
    ParsedSource.readBack hparse hout hparse' hnodup⟩

/-- In an updated node that parses, without a path twice, a fragment whose text began with LF and
was put behind a CR stands behind CR LF. -/
theorem NodeUpdated.behindCrLf {nodeUpdates : OrdMap Nat (List FragmentUpdate)} {n n' : SourceNode}
    (h : NodeUpdated nodeUpdates n n') {p' : ParsedSource} (hp' : Parses n' p')
    (hnodup : (p'.view.map FragmentView.path).Nodup) {updates : List FragmentUpdate}
    (hupdates : updates = (nodeUpdates.find? n.handle.index).getD []) {p : ParsedSource}
    (hp : Parses n p) {f : ParsedFragment p.source} (hf : f ∈ p.fragments)
    (hcr : f.BehindCr p.source) (hlf : (f.view.wanted updates).source.head? = some '\n') :
    ∃ f' ∈ p'.fragments, f'.path = f.path ∧ f'.BehindCrLf p'.source := by
  obtain ⟨p₁, out, hp₁, hparse, hout, hparse'⟩ := h.rewritten hp' hupdates
  obtain rfl := Except.ok.inj (hp.symm.trans hp₁)
  exact ParsedSource.behindCrLf_of_rewrite hparse hout hparse' hnodup hf hcr hlf

/-- An updated node that parses, without a path twice, is kept. -/
theorem nodeKept_of_updated {nodeUpdates : OrdMap Nat (List FragmentUpdate)} {n n' : SourceNode}
    (h : NodeUpdated nodeUpdates n n') {p' : ParsedSource} (hp' : Parses n' p')
    (hnodup : (p'.view.map FragmentView.path).Nodup) : NodeKept nodeUpdates n n' := by
  obtain ⟨p, hp, hparse, haddressed, hview⟩ := h.view_eq hp' hnodup rfl
  refine ⟨h.index, h.kind, p, p', hp, hp', ?_⟩
  rw [hview, ParsedSource.view, List.forall₂_map_left_iff, List.forall₂_map_right_iff,
    List.forall₂_same]
  exact fun f hf => fragmentKept_reread hparse haddressed hf

/-- A materialized document has the nodes of the old one with the same fragments in the same order:
sources change only where they are replaced, and baselines only where they are updated. No condition
on the new texts is needed: where a first LF is lost, the markers are still where they were. -/
theorem materializeDocument_keeps {bytes bytes' : Bytes}
    {nodeUpdates : OrdMap Nat (List FragmentUpdate)}
    (h : materializeDocument bytes nodeUpdates = .ok (some bytes')) (d d' : Nat) :
    ∃ document document', Document.parse d bytes = .ok document ∧
      Document.parse d' bytes' = .ok document' ∧
      List.Forall₂ (NodeKept nodeUpdates) document.sources document'.sources := by
  obtain ⟨document₂, hparse₂, -⟩ := Except.bind_eq_ok.1 h
  obtain ⟨document, hparse, -⟩ := parse_document (mapError_eq_ok.1 hparse₂) d
  obtain ⟨document', hparse', hupdated⟩ := materializeDocument_spec h hparse d'
  have hvalid := validFragments_of_validate (validate_of_materialize h) hparse'
  refine ⟨document, document', hparse, hparse', forall₂_of_mem_right hupdated ?_⟩
  intro n n' hn' hnode
  obtain ⟨p', hp', hnodup⟩ := hvalid.node hn'
  exact nodeKept_of_updated hnode hp' hnodup

end

/-- A buffer with a root object and one DSP node, whose source is one fragment without text. -/
def fragmentBuffer : Bytes :=
  sampleBuffer.take 84 ++ [15, 0, 0, 0] ++ encode (emptyFragment ['\n']) ++ [0]

/-- The update that replaces the text of that fragment. -/
def fragmentUpdates : OrdMap Nat (List FragmentUpdate) :=
  OrdMap.empty.insert 1 [.replace samplePath lfSource]

set_option maxRecDepth 4000 in
/-- On the sample buffer the update of its fragment makes a new document, and that document has the
same nodes and fragments. -/
theorem materializeDocument_keeps_sample : ∃ bytes',
    @materializeDocument lfDigest fragmentBuffer fragmentUpdates = .ok (some bytes') ∧
    ∃ document document', Document.parse 0 fragmentBuffer = .ok document ∧
      Document.parse 1 bytes' = .ok document' ∧
      List.Forall₂ (@NodeKept lfDigest fragmentUpdates) document.sources document'.sources :=
  ⟨_, rfl, @materializeDocument_keeps lfDigest _ _ _ rfl 0 1⟩

end Zwirn.Sync
