import Zwirn.Lib.Merge
import Zwirn.Sync.Runs

/-!
# Histories

A history is a run of commands that returned, with anything in between that brings no hash of its
own into the document: edits of the files and of the embedded text, fragments that come and go,
commands that fail before they write the document. Over a history that begins without hashes, a
stored hash is the one of a text on which an earlier command has left both sides in agreement
(`History.agreed`). So no command that is not forced overwrites a text that was not agreed on before
(`History.overwrites_agreed`), and `sync` is the three-way merge whose base is the text that was
agreed on (`History.sync_merges`).
-/

namespace Zwirn.Sync

open Lib Fragment Adls

section
variable [Sha256] {σ δ φ ε : Type} {fs : FileSystem σ δ φ} {access : AccessPolicy σ ε}
  {paths : ResolvedPaths} {W : Workspace fs access paths}

/-- The disk shows the entry. -/
def Workspace.Has (W : Workspace fs access paths) (d : Disk φ) (entry : InventoryEntry) : Prop :=
  ∃ inventory, W.Shows d inventory ∧ entry ∈ inventory.entries

/-- The hashes of a disk are at the same paths in earlier states. -/
def Workspace.BringsNoHash (W : Workspace fs access paths) (past : List σ) (t : σ) : Prop :=
  ∀ entry', W.Has (W.view t) entry' → ∀ hash, entry'.baseline = some hash →
    ∃ u ∈ past, ∃ entry, W.Has (W.view u) entry ∧ entry.path = entry'.path ∧
      entry.baseline = some hash

/-- The states before a state, the latest first. Commands and changes by others come in any order.
Only commands store hashes that were not there before. -/
inductive History (W : Workspace fs access paths) : List σ → σ → Prop
  | start {s : σ} : (∀ entry, W.Has (W.view s) entry → entry.baseline = none) → History W [] s
  | command {past : List σ} {request : Request} {op : Operation} {report : Report} {s t : σ} :
      History W past s →
      resolvePaths request.cwd request.document request.sourceRoot = .ok paths →
      request.mode = .mutate op → W.Separate (W.targets (W.view s)) →
      executeWithAccess fs access request s = (.ok report, t) → History W (s :: past) t
  | other {past : List σ} {s t : σ} : History W past s → W.BringsNoHash (s :: past) t →
      History W (s :: past) t

/-- The disk shows the entry with a text that has arrived there. -/
def Workspace.HasArrived (W : Workspace fs access paths) (d : Disk φ) (text : CanonicalSource)
    (entry : InventoryEntry) : Prop :=
  ∃ inventory, W.Shows d inventory ∧ entry ∈ inventory.entries ∧
    ∃ action, Arrived inventory.documentBytes text action entry

/-- The file, the closing marker and the embedded text of a fragment agree on a text. The embedded
text may be the rest of it behind an LF that belongs to the marker line, as `LostLf` says. -/
def Workspace.Agreed (W : Workspace fs access paths) (d : Disk φ) (path : FragmentPath)
    (text : CanonicalSource) : Prop :=
  ∃ entry, entry.path = path ∧ W.HasArrived d text entry

variable {request : Request} {op : Operation} {report : Report} {past : List σ} {s t : σ}

/-- What a command that returned makes of what the disk shows. -/
theorem exists_becomes
    (hpaths : resolvePaths request.cwd request.document request.sourceRoot = .ok paths)
    (hmode : request.mode = .mutate op) (hseparate : W.Separate (W.targets (W.view s)))
    (hrun : executeWithAccess fs access request s = (.ok report, t)) {inventory : Inventory δ}
    (hshows : W.Shows (W.view t) inventory) {entry' : InventoryEntry}
    (hentry' : entry' ∈ inventory.entries) :
    ∃ entry, W.Has (W.view s) entry ∧ entry'.path = entry.path ∧
      Becomes request op inventory.documentBytes entry entry' := by
  obtain ⟨b, h, -⟩ := exists_ran hpaths hmode hseparate hrun
  obtain ⟨entry, hentry, hfound, hbecomes⟩ := exists_left_of_forall₂ (h.becomes hshows) hentry'
  exact ⟨entry, ⟨_, h.shows_, hentry⟩, hfound.path, hbecomes⟩

omit [Sha256] in
/-- The entries of a disk are in path order. -/
theorem Workspace.Shows.inPathOrder {d : Disk φ} {inventory : Inventory δ}
    (h : W.Shows d inventory) : InPathOrder inventory.entries := by
  obtain ⟨i, -, -, document, ds, -, hds, hlists⟩ := h.listed
  have hpaths : inventory.entries.map InventoryEntry.path = ds.map DiscoveredFragment.path :=
    map_eq_of_forall₂ hlists.aligned.flip fun _ _ hentry => hentry.path
  rw [InPathOrder, hpaths]
  exact hds.sorted

omit [Sha256] in
/-- A disk shows one entry at a path. -/
theorem Workspace.Has.unique {d : Disk φ} {entry entry' : InventoryEntry} (h : W.Has d entry)
    (h' : W.Has d entry') (hpath : entry'.path = entry.path) : entry' = entry := by
  obtain ⟨inventory, hshows, hentry⟩ := h
  obtain ⟨inventory', hshows', hentry'⟩ := h'
  rw [(hshows.unique hshows').2] at hentry'
  exact hshows.inPathOrder.path_inj hentry' hentry hpath

omit [Sha256] in
/-- Where the document is the same, the disk shows the same hashes. The nodes parse to the same
fragments, so no hash can have come from outside. -/
theorem Workspace.Shows.bringsNoHash {inventory : Inventory δ} (h : W.Shows (W.view s) inventory)
    (hkept : ∀ i, (W.view s).document = some i →
      (W.view t).document = some i ∧ (W.view t).content i = (W.view s).content i)
    (past : List σ) : W.BringsNoHash (s :: past) t := by
  intro entry' hentry' hash hhash
  obtain ⟨inventory', hshows', hmem'⟩ := hentry'
  obtain ⟨i, hdocument, hcontent, document, ds, hparse, hds, hlists⟩ := h.listed
  obtain ⟨i', hdocument', hcontent', document', ds', hparse', hds', hlists'⟩ := hshows'.listed
  obtain ⟨hsame, hbytes⟩ := hkept i hdocument
  obtain rfl := Option.some.inj (hsame.symm.trans hdocument')
  rw [hbytes, hcontent, Option.some.injEq] at hcontent'
  rw [← hcontent', hparse, Except.ok.injEq] at hparse'
  subst hparse'
  obtain rfl := Except.ok.inj ((discoverFragments_eq_ok.2 hds).symm.trans
    (discoverFragments_eq_ok.2 hds'))
  obtain ⟨d, hd, hisEntry'⟩ := exists_left_of_forall₂ hlists'.aligned hmem'
  obtain ⟨entry, hentry, hisEntry⟩ := exists_right_of_forall₂ hlists.aligned hd
  exact ⟨s, List.mem_cons_self, entry, ⟨_, h, hentry⟩, hisEntry.path.trans hisEntry'.path.symm,
    (hisEntry.baseline.trans hisEntry'.baseline.symm).trans hhash⟩

/-- A run that leaves the document as it is brings no hash, however it ends. So failed commands may
come between the others in a history, if they have not got to the document. -/
theorem executeWithAccess_bringsNoHash
    (hpaths : resolvePaths request.cwd request.document request.sourceRoot = .ok paths)
    {r : Except (PolicyFailure (EngineAccessFailure ε) Error) Report}
    (hrun : executeWithAccess fs access request s = (r, t))
    (hkept : ∀ i, (W.view s).document = some i →
      (W.view t).document = some i ∧ (W.view t).content i = (W.view s).content i)
    (past : List σ) : W.BringsNoHash (s :: past) t := by
  by_cases hprepares : ∃ b u, Prepares fs access request s b u
  · obtain ⟨b, u, h⟩ := hprepares
    obtain rfl : b.paths = paths := Except.ok.inj (h.paths.symm.trans hpaths)
    exact (h.shows W).2.bringsNoHash hkept past
  · have hview := executeWithAccess_idle W hpaths hprepares
    rw [hrun] at hview
    intro entry' hentry' hash hhash
    exact ⟨s, List.mem_cons_self, entry', hview ▸ hentry', rfl, hhash⟩

/-! ## What was agreed on -/

/-- In one of the states a text with this hash was agreed on. -/
def Workspace.WasAgreed (W : Workspace fs access paths) (states : List σ) (path : FragmentPath)
    (hash : BaselineHash) : Prop :=
  ∃ u ∈ states, ∃ text, W.Agreed (W.view u) path text ∧ BaselineHash.fromSource text = hash

/-- What was agreed stays agreed when the history goes on. -/
theorem Workspace.WasAgreed.cons {states : List σ} {path : FragmentPath} {hash : BaselineHash}
    (h : W.WasAgreed states path hash) (u : σ) : W.WasAgreed (u :: states) path hash := by
  obtain ⟨v, hv, hagreed⟩ := h
  exact ⟨v, List.mem_cons_of_mem _ hv, hagreed⟩

/-- The stored hashes of all states are those of texts that were agreed on. The induction is on the
history: a hash comes from a run, or it was there before. -/
theorem History.agreed_of_mem (h : History W past s) {v : σ} (hv : v ∈ s :: past)
    {entry : InventoryEntry} (hentry : W.Has (W.view v) entry) {hash : BaselineHash}
    (hhash : entry.baseline = some hash) : W.WasAgreed (s :: past) entry.path hash := by
  induction h generalizing v entry with
  | start hnone =>
    obtain rfl := List.mem_singleton.1 hv
    rw [hnone entry hentry] at hhash
    cases hhash
  | command _ hpaths hmode hseparate hrun ih =>
    rcases List.mem_cons.1 hv with rfl | hv
    · obtain ⟨inventory, hshows, hmem⟩ := hentry
      obtain ⟨entry₀, hentry₀, -, hbecomes⟩ :=
        exists_becomes hpaths hmode hseparate hrun hshows hmem
      cases hbecomes with
      | kept _ heq => exact heq ▸ (ih List.mem_cons_self hentry₀ (heq ▸ hhash)).cons _
      | acted _ _ harrived =>
        refine ⟨v, List.mem_cons_self, _, ⟨entry, rfl, inventory, hshows, hmem, _, harrived⟩, ?_⟩
        exact Option.some.inj (harrived.hash.symm.trans hhash)
    · exact (ih hv hentry hhash).cons _
  | other _ hno ih =>
    rcases List.mem_cons.1 hv with rfl | hv
    · obtain ⟨u, hu, entry₀, hentry₀, hpath, hhash₀⟩ := hno entry hentry hash hhash
      exact hpath ▸ (ih hu hentry₀ hhash₀).cons _
    · exact (ih hv hentry hhash).cons _

/-- Every stored hash is the one of a text that was agreed on. -/
theorem History.agreed (h : History W past s) {entry : InventoryEntry}
    (hentry : W.Has (W.view s) entry) {hash : BaselineHash} (hhash : entry.baseline = some hash) :
    W.WasAgreed (s :: past) entry.path hash :=
  h.agreed_of_mem List.mem_cons_self hentry hhash

/-- What a command that returned makes of an entry that is found again. It is the entry with the
same path that it is made of. -/
theorem Workspace.Has.becomes {entry entry' : InventoryEntry} (hentry : W.Has (W.view s) entry)
    (hentry' : W.Has (W.view t) entry') (hpath : entry'.path = entry.path)
    (hpaths : resolvePaths request.cwd request.document request.sourceRoot = .ok paths)
    (hmode : request.mode = .mutate op) (hseparate : W.Separate (W.targets (W.view s)))
    (hrun : executeWithAccess fs access request s = (.ok report, t)) :
    ∃ inventory, W.Shows (W.view t) inventory ∧ entry' ∈ inventory.entries ∧
      Becomes request op inventory.documentBytes entry entry' := by
  obtain ⟨inventory, hshows, hmem⟩ := hentry'
  obtain ⟨entry₀, hentry₀, hpath₀, hbecomes⟩ :=
    exists_becomes hpaths hmode hseparate hrun hshows hmem
  rw [hentry.unique hentry₀ (hpath₀.symm.trans hpath)] at hbecomes
  exact ⟨inventory, hshows, hmem, hbecomes⟩

/-- A command that is not forced overwrites a file, or an embedded text, only if its text has the
hash of one that was agreed on before. The history begins with a document that brings no hashes of
its own, and goes on by commands on separate targets and by edits that bring none either. -/
theorem History.overwrites_agreed (h : History W past s)
    (hpaths : resolvePaths request.cwd request.document request.sourceRoot = .ok paths)
    (hmode : request.mode = .mutate op) (hop : op.forcedAction = none)
    (hseparate : W.Separate (W.targets (W.view s)))
    (hrun : executeWithAccess fs access request s = (.ok report, t))
    {entry entry' : InventoryEntry} (hentry : W.Has (W.view s) entry)
    (hentry' : W.Has (W.view t) entry') (hpath : entry'.path = entry.path) :
    (∀ file, entry.filesystem = some file → entry'.filesystem ≠ some file →
      W.WasAgreed (s :: past) entry.path (.fromSource file)) ∧
    (entry'.embedded ≠ entry.embedded →
      W.WasAgreed (s :: past) entry.path (.fromSource entry.embedded)) := by
  have hforced : ForcedOnConflicts op (selectionKind request.selectors) [] :=
    fun hforced => absurd hop hforced
  obtain ⟨inventory, -, -, hbecomes⟩ := hentry.becomes hentry' hpath hpaths hmode hseparate hrun
  cases hbecomes with
  | kept _ heq =>
    subst heq
    exact ⟨fun file hfile hne => absurd hfile hne, fun hne => absurd rfl hne⟩
  | @acted action text hacts htext harrived =>
    refine ⟨fun file hfile hne => ?_, fun hne => ?_⟩
    · cases action with
      | embed => exact absurd (harrived.file.trans (htext.symm.trans hfile)) hne
      | record =>
        have hsame := decideEntry_record hacts.2
        exact absurd (harrived.file.trans (htext.symm.trans (hsame.symm.trans hfile))) hne
      | extract =>
        rcases mayOverwrite_of_extract hforced hacts.2 hfile with ⟨-, hhash, -⟩ | ⟨-, hconflicts⟩
        · exact h.agreed hentry hhash
        · exact absurd rfl hconflicts.2.1
    · cases action with
      | embed =>
        rcases mayReplace_of_embed hforced hacts.2 with ⟨-, hhash⟩ | ⟨-, hconflicts⟩
        · exact h.agreed hentry hhash
        · exact absurd rfl hconflicts.2.1
      | record | extract =>
        have hembedded : entry'.embedded = text :=
          harrived.embedded.resolve_right fun hlost => by cases hlost.1
        exact absurd (hembedded.trans (Option.some.inj htext).symm) hne

/-! ## Merges -/

/-- The base of an entry: the text whose hash is stored. -/
structure IsBase (entry : InventoryEntry) (base : Option CanonicalSource) : Prop where
  hash : entry.baseline = base.map .fromSource
  /-- The hash tells the base from the texts of both sides. -/
  file : ∀ text ∈ base, ∀ file ∈ entry.filesystem,
    BaselineHash.fromSource file = .fromSource text → file = text
  embedded : ∀ text ∈ base, BaselineHash.fromSource entry.embedded = .fromSource text →
    entry.embedded = text

/-- What a merge of both sides with their base asks for: a text on both sides, or, where the sides
conflict or the file was deleted, nothing. -/
def MergesTo (entry : InventoryEntry) (base : Option CanonicalSource) (text : CanonicalSource) :
    Prop := merge base entry.filesystem (some entry.embedded) = some (some text)

/-- What is decided for a merge that gives a text. The cases are those of the classification, and in
each of them the merge is computed. -/
theorem MergesTo.decided {entry : InventoryEntry} {base : Option CanonicalSource}
    {text : CanonicalSource} (h : MergesTo entry base text) (hbase : IsBase entry base)
    (selection : SelectionKind) :
    entry.classification = .synchronized ∧ entry.embedded = text ∨
      ∃ action, decision .sync selection entry.classification = .act action ∧
        entry.transferred action = some text := by
  obtain ⟨nodeIndex, path, embedded, baseline, target, filesystem⟩ := entry
  obtain ⟨hhash, hfile, hembedded⟩ := hbase
  have hc := classified embedded baseline filesystem
  rw [MergesTo, merge_eq_some] at h
  dsimp only [InventoryEntry.classification] at *
  generalize classify embedded baseline filesystem = c at hc
  cases hc with
  | absent =>
    obtain rfl := Option.map_eq_none_iff.1 hhash.symm
    obtain rfl : text = embedded := by simpa using h
    exact .inr ⟨.extract, rfl, rfl⟩
  | matching =>
    obtain rfl : text = embedded := by simpa using h
    exact .inr ⟨.record, rfl, rfl⟩
  | synchronized =>
    obtain rfl : text = embedded := by simpa using h
    exact .inl ⟨rfl, rfl⟩
  | converged _ =>
    obtain rfl : text = embedded := by simpa using h
    exact .inr ⟨.record, rfl, rfl⟩
  | unadoptedConflict hne =>
    obtain rfl := Option.map_eq_none_iff.1 hhash.symm
    simp [hne, hne.symm] at h
  | missing =>
    obtain ⟨t, rfl, -⟩ := Option.map_eq_some_iff.1 hhash.symm
    simp at h
  | embed hne _ =>
    obtain ⟨t, rfl, ht⟩ := Option.map_eq_some_iff.1 hhash.symm
    obtain rfl := hembedded t rfl ht.symm
    obtain rfl : text = _ := by simpa [hne] using h
    exact .inr ⟨.embed, rfl, rfl⟩
  | extract hne _ =>
    obtain ⟨t, rfl, ht⟩ := Option.map_eq_some_iff.1 hhash.symm
    obtain rfl := hfile t rfl _ rfl ht.symm
    obtain rfl : text = embedded := by simpa [hne.symm] using h
    exact .inr ⟨.extract, rfl, rfl⟩
  | @conflict hash file hne hiff =>
    obtain ⟨t, rfl, rfl⟩ := Option.map_eq_some_iff.1 hhash.symm
    rcases h with ⟨-, heq⟩ | ⟨-, heq⟩
    · obtain rfl : embedded = t := by simpa [hne.symm] using heq
      exact absurd (hfile _ rfl file rfl (hiff.2 rfl)) hne
    · obtain rfl : file = t := by simpa [hne] using heq
      exact absurd (hembedded _ rfl (hiff.1 rfl)).symm hne

/-- Where a merge gives no text there is nothing to act on. An action would be on a fragment with
changes on one side only, and then a merge gives a text. -/
theorem IsBase.not_act {entry : InventoryEntry} {base : Option CanonicalSource}
    (hbase : IsBase entry base) (h : ∀ text, ¬ MergesTo entry base text)
    (selection : SelectionKind) (action : Action) :
    decision .sync selection entry.classification ≠ .act action := by
  obtain ⟨nodeIndex, path, embedded, baseline, target, filesystem⟩ := entry
  obtain ⟨hhash, hfile, hembedded⟩ := hbase
  intro hact
  have hc := classified embedded baseline filesystem
  have hd := Sync.decided .sync selection (classify embedded baseline filesystem)
  simp only [MergesTo, merge_eq_some, not_or] at h
  dsimp only [InventoryEntry.classification] at *
  rw [hact] at hd
  generalize classify embedded baseline filesystem = c at hc hd
  cases hd with
  | forced hforced => cases hforced
  | matching | converged =>
    cases hc
    exact (h embedded).1 ⟨rfl, .inl rfl⟩
  | absent _ =>
    cases hc
    exact (h embedded).2 ⟨rfl, .inr (Option.map_eq_none_iff.1 hhash.symm).symm⟩
  | missing hop _ => cases hop
  | extract _ =>
    cases hc with
    | @extract file _ _ =>
      obtain ⟨t, rfl, ht⟩ := Option.map_eq_some_iff.1 hhash.symm
      exact (h embedded).2 ⟨rfl, .inr (congrArg some (hfile t rfl file rfl ht.symm))⟩
  | embed _ =>
    cases hc with
    | @embed file _ _ =>
      obtain ⟨t, rfl, ht⟩ := Option.map_eq_some_iff.1 hhash.symm
      exact (h file).1 ⟨rfl, .inr (congrArg some (hembedded t rfl ht.symm))⟩

/-- `sync` is a three-way merge. In a history it leaves a selected fragment with the merge of its
file and its embedded text, whose base is a text with the stored hash that was agreed on before, if
the hash tells this text from both; where the sides conflict, or the file was deleted, it leaves the
fragment as it was. Where a first LF was lost behind a CR, the text that arrives is the merged one
without it. -/
theorem History.sync_merges (h : History W past s)
    (hpaths : resolvePaths request.cwd request.document request.sourceRoot = .ok paths)
    (hmode : request.mode = .mutate .sync) (hseparate : W.Separate (W.targets (W.view s)))
    (hrun : executeWithAccess fs access request s = (.ok report, t))
    {entry entry' : InventoryEntry} (hentry : W.Has (W.view s) entry)
    (hentry' : W.Has (W.view t) entry') (hpath : entry'.path = entry.path)
    (hselects : request.Selects entry.path) :
    ∃ base : Option CanonicalSource, entry.baseline = base.map .fromSource ∧
      (∀ text ∈ base, ∃ u ∈ s :: past, W.Agreed (W.view u) entry.path text) ∧
      (IsBase entry base →
        (∀ text, MergesTo entry base text → W.HasArrived (W.view t) text entry') ∧
        ((∀ text, ¬ MergesTo entry base text) → entry' = entry)) := by
  obtain ⟨base, hbase, hagreed⟩ : ∃ base : Option CanonicalSource,
      entry.baseline = base.map .fromSource ∧
        ∀ text ∈ base, ∃ u ∈ s :: past, W.Agreed (W.view u) entry.path text := by
    cases hhash : entry.baseline with
    | none => exact ⟨none, rfl, by simp⟩
    | some hash =>
      obtain ⟨u, hu, text, hagreed, rfl⟩ := h.agreed hentry hhash
      exact ⟨some text, rfl, fun text' htext => ⟨u, hu, Option.some.inj htext ▸ hagreed⟩⟩
  obtain ⟨inventory, hshows, hmem, hbecomes⟩ :=
    hentry.becomes hentry' hpath hpaths hmode hseparate hrun
  refine ⟨base, hbase, hagreed, fun hisBase => ⟨fun text hmerges => ?_, fun hnone => ?_⟩⟩
  · rcases hmerges.decided hisBase (selectionKind request.selectors) with
      ⟨hsynchronized, rfl⟩ | ⟨action, hact, htext⟩
    · cases hbecomes with
      | acted hacts =>
        have hdecided := hacts.2
        rw [decideEntry_synchronized rfl hsynchronized] at hdecided
        cases hdecided
      | kept _ heq =>
        obtain ⟨hfile, hhash⟩ := classify_eq_synchronized.1 hsynchronized
        have harrived : Arrived inventory.documentBytes entry.embedded .record entry :=
          ⟨hfile, hhash, .inl rfl⟩
        exact ⟨inventory, hshows, hmem, .record, heq ▸ harrived⟩
    · cases hbecomes with
      | kept hnone _ => exact absurd ⟨hselects, hact⟩ (hnone action)
      | acted hacts htext' harrived =>
        obtain rfl := Decision.act.inj (hacts.2.symm.trans hact)
        exact ⟨inventory, hshows, hmem, _, Option.some.inj (htext'.symm.trans htext) ▸ harrived⟩
  · cases hbecomes with
    | kept _ heq => exact heq
    | acted hacts => exact absurd hacts.2 (hisBase.not_act hnone _ _)

end

/-! ## A sample -/

/-- The sample request as a synchronization of all fragments. -/
def syncRequest : Request := { sampleRequest with mode := .mutate .sync }

/-- Synchronizes all fragments of the document. -/
def syncAll (t : Tree) : Except (PolicyFailure (EngineAccessFailure Empty) Error) Report × Tree :=
  @executeWithAccess lfDigest _ _ _ _ (treeFilesystem []) AccessPolicy.direct syncRequest t

/-- The files of two fragments are written, and one of them is edited. -/
def editedTree : Tree := (syncAll pairTree).2.setContent [['p']] [10]

/-- An edit of another file leaves the document as it was. Files with different locations have
different identities. -/
theorem sampleWorkspace_setContent {t : Tree} {location : Location} (bytes : Bytes)
    (hne : location ≠ [sampleDocumentName])
    (hfile : (t.metadata location).any (·.fileType = .file) = true) (i : FileIdentity)
    (h : (sampleWorkspace.view t).document = some i) :
    (sampleWorkspace.view (t.setContent location bytes)).document = some i ∧
      (sampleWorkspace.view (t.setContent location bytes)).content i =
        (sampleWorkspace.view t).content i := by
  refine ⟨h, ?_⟩
  obtain ⟨m, hm, rfl⟩ := Option.map_eq_some_iff.1 h
  obtain ⟨m', hm', htype⟩ := (Option.any_eq_true _ _).1 hfile
  have hstands : t.HasFile m'.identity location := ⟨m', hm', rfl, by
    rw [of_decide_eq_true htype]; simp⟩
  refine (congrFun (Tree.fileContent_setContent hstands bytes) _).trans
    (Function.update_of_ne (fun heq => ?_) _ _)
  exact hne (t.distinct _ _ _ _ hm' hm heq.symm)

/-- The history of the edited file. It starts without hashes, then a command writes two files, and
then one of them is edited. -/
theorem editedTree_history :
    @History lfDigest _ _ _ _ _ _ _ sampleWorkspace [(syncAll pairTree).2, pairTree] editedTree := by
  let _ : Sha256 := lfDigest
  obtain ⟨report, hrun⟩ := @exists_of_isOk _ _ _ (syncAll pairTree) (by decide +kernel)
  obtain ⟨inventory, hshows, hnone⟩ := @shows_of_any pairTree
    (fun inventory => inventory.entries.all fun entry => entry.baseline.isNone) (by decide +kernel)
  obtain ⟨inventory', hshows', -⟩ := @shows_of_any (syncAll pairTree).2 (fun _ => true)
    (by decide +kernel)
  refine .other (.command (.start fun entry hentry => ?_) rfl rfl (sampleTargets_separate _) hrun)
    (hshows'.bringsNoHash
      (sampleWorkspace_setContent [10] (by decide) (by decide +kernel)) _)
  obtain ⟨inventory₁, hshows₁, hmem⟩ := hentry
  rw [(hshows.unique hshows₁).2] at hmem
  exact Option.isNone_iff_eq_none.1 (List.all_eq_true.1 hnone entry hmem)

/-- The entries of a fragment before and after a command on the edited file. The file of the
fragment was edited, so the command embeds it. -/
theorem editedTree_entries (path : FragmentPath)
    (h : (discoverSample editedTree).1.toOption.any
      (fun inventory => inventory.entries.any fun entry => entry.path = path) = true)
    (h' : (discoverSample (syncAll editedTree).2).1.toOption.any
      (fun inventory => inventory.entries.any fun entry => entry.path = path) = true) :
    ∃ entry entry', sampleWorkspace.Has (sampleWorkspace.view editedTree) entry ∧
      sampleWorkspace.Has (sampleWorkspace.view (syncAll editedTree).2) entry' ∧
      entry.path = path ∧ entry'.path = path := by
  obtain ⟨inventory, hshows, hany⟩ := shows_of_any h
  obtain ⟨inventory', hshows', hany'⟩ := shows_of_any h'
  obtain ⟨entry, hentry, hpath⟩ := List.any_eq_true.1 hany
  obtain ⟨entry', hentry', hpath'⟩ := List.any_eq_true.1 hany'
  exact ⟨entry, entry', ⟨_, hshows, hentry⟩, ⟨_, hshows', hentry'⟩, of_decide_eq_true hpath,
    of_decide_eq_true hpath'⟩

/-- The edited file is embedded in place of a text that was agreed on. The history begins with a
pair of fragments, which are synchronized before one of the files is edited. -/
theorem History.overwrites_agreed_sample : ∃ entry entry' : InventoryEntry,
    entry.path = samplePath ∧
    (∀ file, entry.filesystem = some file → entry'.filesystem ≠ some file →
      @Workspace.WasAgreed lfDigest _ _ _ _ _ _ _ sampleWorkspace
        [editedTree, (syncAll pairTree).2, pairTree] entry.path
        (@BaselineHash.fromSource lfDigest file)) ∧
    (entry'.embedded ≠ entry.embedded →
      @Workspace.WasAgreed lfDigest _ _ _ _ _ _ _ sampleWorkspace
        [editedTree, (syncAll pairTree).2, pairTree] entry.path
        (@BaselineHash.fromSource lfDigest entry.embedded)) := by
  obtain ⟨report, hrun⟩ := @exists_of_isOk _ _ _ (syncAll editedTree) (by decide +kernel)
  obtain ⟨entry, entry', hentry, hentry', hpath, hpath'⟩ := editedTree_entries samplePath
    (by decide +kernel) (by decide +kernel)
  exact ⟨entry, entry', hpath, @History.overwrites_agreed lfDigest _ _ _ _ _ _ _ sampleWorkspace
    syncRequest .sync _ _ _ _ editedTree_history rfl rfl rfl (sampleTargets_separate _) hrun _ _
    hentry hentry' (hpath'.trans hpath.symm)⟩

/-- The edited file is merged with the embedded text. The base is the text that both had behind the
first synchronization. -/
theorem History.sync_merges_sample : ∃ entry entry' : InventoryEntry, entry.path = samplePath ∧
    ∃ base : Option CanonicalSource,
      entry.baseline = base.map (@BaselineHash.fromSource lfDigest) ∧
      (∀ text ∈ base, ∃ u ∈ [editedTree, (syncAll pairTree).2, pairTree],
        @Workspace.Agreed lfDigest _ _ _ _ _ _ _ sampleWorkspace (sampleWorkspace.view u)
          entry.path text) ∧
      (@IsBase lfDigest entry base →
        (∀ text, MergesTo entry base text → @Workspace.HasArrived lfDigest _ _ _ _ _ _ _
          sampleWorkspace (sampleWorkspace.view (syncAll editedTree).2) text entry') ∧
        ((∀ text, ¬ MergesTo entry base text) → entry' = entry)) := by
  obtain ⟨report, hrun⟩ := @exists_of_isOk _ _ _ (syncAll editedTree) (by decide +kernel)
  obtain ⟨entry, entry', hentry, hentry', hpath, hpath'⟩ := editedTree_entries samplePath
    (by decide +kernel) (by decide +kernel)
  exact ⟨entry, entry', hpath, @History.sync_merges lfDigest _ _ _ _ _ _ _ sampleWorkspace
    syncRequest _ _ _ _ editedTree_history rfl rfl (sampleTargets_separate _) hrun _ _
    hentry hentry' (hpath'.trans hpath.symm) (.inl rfl)⟩

end Zwirn.Sync
