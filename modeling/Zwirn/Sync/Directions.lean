import Zwirn.Sync.Status

/-!
# Both directions

Two commands, one behind the other, do what a third one does, if each entry is acted on by one of
them only, and in the way in which the third one acts on it (`Ran.composes`). So `sync` does what
`embed` and `extract` do, in either order (`sync_eq_directions`).
-/

namespace Zwirn.Sync

open Lib Fragment Adls

section
variable [Sha256] {σ δ φ ε : Type} {fs : FileSystem σ δ φ} {access : AccessPolicy σ ε}
  {paths : ResolvedPaths} {W : Workspace fs access paths} {request request₁ request₂ : Request}
  {op op₁ op₂ : Operation} {s t t₁ t₂ : σ} {b b₁ b₂ : Batch δ}

/-! ## What a command does to a node and to a file -/

/-- The updates of a node at the path of an entry are the actions on the entry. A path belongs to
one entry of the inventory, so it is known which entry an update is about. -/
theorem Ran.mem_updates (h : Ran W request op s b t) {entry : InventoryEntry}
    (hentry : entry ∈ b.inventory.entries) {nodeIndex : Nat} {u : FragmentUpdate}
    (hpath : u.path = entry.path) :
    u ∈ (b.prepared.nodeUpdates.find? nodeIndex).getD [] ↔ entry.nodeIndex = nodeIndex ∧
      ∃ action, request.Acts op entry action ∧ updateOf (entry, .act action) = some u := by
  rw [h.prepared.updates, mem_updatesAt_decideEntry]
  constructor
  · rintro ⟨entry', hselected, hindex, hupdate⟩
    obtain ⟨hentry', hselects⟩ := h.mem_selected.1 hselected
    obtain rfl := h.order.path_inj hentry' hentry ((updateOf_path hupdate).symm.trans hpath)
    obtain ⟨action, hact⟩ := updateOf_acts hupdate
    refine ⟨hindex, action, ⟨hselects, hact⟩, ?_⟩
    rwa [← hact]
  · rintro ⟨hindex, action, hacts, hupdate⟩
    refine ⟨entry, h.mem_selected.2 ⟨hentry, hacts.1⟩, hindex, ?_⟩
    rwa [updateOf, hacts.2]

/-- The updates of a node are at the paths of entries. -/
theorem Ran.exists_entry (h : Ran W request op s b t) {nodeIndex : Nat} {u : FragmentUpdate}
    (hu : u ∈ (b.prepared.nodeUpdates.find? nodeIndex).getD []) :
    ∃ entry ∈ b.inventory.entries, u.path = entry.path := by
  rw [h.prepared.updates] at hu
  obtain ⟨entry, hselected, hpath⟩ := mem_updatesAt_path hu
  exact ⟨entry, (h.mem_selected.1 hselected).1, hpath.symm⟩

/-- A run updates a fragment at most once, since the inventory is in strict path order. -/
theorem Ran.updates_nodup (h : Ran W request op s b t) (nodeIndex : Nat) :
    (((b.prepared.nodeUpdates.find? nodeIndex).getD []).map FragmentUpdate.path).Nodup := by
  rw [h.prepared.updates, h.selected]
  exact updatesAt_nodup (h.order.chosen _) nodeIndex

/-- What the file of an entry holds after a command. An extraction has written the embedded text
there, and other actions leave the file. -/
theorem Ran.holds_of_acts (h : Ran W request op s b t) {entry : InventoryEntry}
    (hentry : entry ∈ b.inventory.entries) :
    (request.Acts op entry .extract →
      (W.view t).holds entry.path = some (encode entry.embedded.value)) ∧
    (¬ request.Acts op entry .extract →
      (W.view t).holds entry.path = (W.view s).holds entry.path) := by
  obtain ⟨i, -, hstanding⟩ := h.standing
  have hextracted : entry ∈ b.prepared.extracted ↔ request.Acts op entry .extract := by
    rw [h.prepared.mem_extracted, h.mem_selected, and_iff_right hentry]
    rfl
  exact ⟨fun hacts => hstanding.written entry (hextracted.2 hacts),
    fun hnot => hstanding.kept entry hentry fun hmem => hnot (hextracted.1 hmem)⟩

omit [Sha256] in
/-- What is wanted at a path depends on the updates at the path. -/
theorem wantedSource_congr {updates updates' : List FragmentUpdate} {path : FragmentPath}
    (hnodup : (updates.map FragmentUpdate.path).Nodup)
    (hnodup' : (updates'.map FragmentUpdate.path).Nodup)
    (h : ∀ u : FragmentUpdate, u.path = path → (u ∈ updates ↔ u ∈ updates')) :
    wantedSource updates path = wantedSource updates' path := by
  refine Option.ext fun r => ⟨fun hr => ?_, fun hr => ?_⟩
  · obtain ⟨u, hu, rfl, rfl⟩ := mem_of_wantedSource hr
    exact wantedSource_of_mem hnodup' ((h u rfl).1 hu)
  · obtain ⟨u, hu, rfl, rfl⟩ := mem_of_wantedSource hr
    exact wantedSource_of_mem hnodup ((h u rfl).2 hu)

/-! ## Two commands for one -/

/-- Of two commands one acts on an entry, which the first one has turned into `entry₁`, and it does
what a third one does. -/
inductive ActsOnce (request : Request) (op : Operation) (request₁ : Request) (op₁ : Operation)
    (request₂ : Request) (op₂ : Operation) (entry entry₁ : InventoryEntry) : Prop
  | first : (∀ action, request.Acts op entry action ↔ request₁.Acts op₁ entry action) →
      (∀ action, ¬ request₂.Acts op₂ entry₁ action) →
      ActsOnce request op request₁ op₁ request₂ op₂ entry entry₁
  | second : (∀ action, ¬ request₁.Acts op₁ entry action) →
      (∀ action, request.Acts op entry action ↔ request₂.Acts op₂ entry action) →
      ActsOnce request op request₁ op₁ request₂ op₂ entry entry₁

/-- What two commands do to a fragment. Either the first of them or the second one acts on it, so
its updates are those of the third command. -/
theorem Ran.splits (h : Ran W request op s b t) (h₁ : Ran W request₁ op₁ s b₁ t₁)
    (h₂ : Ran W request₂ op₂ t₁ b₂ t₂) {entry entry₁ : InventoryEntry}
    (hentry : entry ∈ b.inventory.entries) (hentry₁ : entry ∈ b₁.inventory.entries)
    (hentry₂ : entry₁ ∈ b₂.inventory.entries) (hfound : Rediscovered b₁.prepared entry entry₁)
    (hacts : ActsOnce request op request₁ op₁ request₂ op₂ entry entry₁) (nodeIndex : Nat)
    {f : FragmentView} (hpath : f.path = entry.path) :
    Splits ((b.prepared.nodeUpdates.find? nodeIndex).getD [])
      ((b₁.prepared.nodeUpdates.find? nodeIndex).getD [])
      ((b₂.prepared.nodeUpdates.find? nodeIndex).getD []) f := by
  cases hacts with
  | first hsame hnone =>
    refine .inl ⟨fun hmem => ?_, ?_⟩
    · obtain ⟨u, hu, hupath⟩ := List.mem_map.1 hmem
      have hpath₂ : u.path = entry₁.path := hupath.trans (hpath.trans hfound.path.symm)
      obtain ⟨-, action, hacts, -⟩ := (h₂.mem_updates hentry₂ hpath₂).1 hu
      exact hnone action hacts
    · refine congrArg f.updated (wantedSource_congr (h.updates_nodup _) (h₁.updates_nodup _)
        fun u hu => ?_)
      rw [h.mem_updates hentry (hu.trans hpath), h₁.mem_updates hentry₁ (hu.trans hpath)]
      simp only [hsame]
  | second hnone hsame =>
    obtain rfl : entry₁ = entry := h₁.unchanged hentry₁ hfound fun hselected action hact =>
      hnone action ⟨(h₁.mem_selected.1 hselected).2, hact⟩
    refine .inr ⟨fun hmem => ?_, ?_⟩
    · obtain ⟨u, hu, hupath⟩ := List.mem_map.1 hmem
      obtain ⟨-, action, hacts, -⟩ := (h₁.mem_updates hentry₁ (hupath.trans hpath)).1 hu
      exact hnone action hacts
    · refine congrArg f.updated (wantedSource_congr (h.updates_nodup _) (h₂.updates_nodup _)
        fun u hu => ?_)
      rw [h.mem_updates hentry (hu.trans hpath), h₂.mem_updates hentry₂ (hu.trans hpath)]
      simp only [hsame]

/-- What two commands do to the file of a fragment. The file holds what an extraction wrote, or what
it held before. -/
theorem Ran.holds_twice (h : Ran W request op s b t) (h₁ : Ran W request₁ op₁ s b₁ t₁)
    (h₂ : Ran W request₂ op₂ t₁ b₂ t₂) {entry entry₁ : InventoryEntry}
    (hentry : entry ∈ b.inventory.entries) (hentry₁ : entry ∈ b₁.inventory.entries)
    (hentry₂ : entry₁ ∈ b₂.inventory.entries) (hfound : Rediscovered b₁.prepared entry entry₁)
    (hacts : ActsOnce request op request₁ op₁ request₂ op₂ entry entry₁) :
    (W.view t₂).holds entry.path = (W.view t).holds entry.path := by
  obtain ⟨hwritten, hkept⟩ := h.holds_of_acts hentry
  obtain ⟨hwritten₁, hkept₁⟩ := h₁.holds_of_acts hentry₁
  obtain ⟨hwritten₂, hkept₂⟩ := h₂.holds_of_acts hentry₂
  rw [hfound.path] at hwritten₂ hkept₂
  cases hacts with
  | first hsame hnone =>
    rw [hkept₂ (hnone _)]
    by_cases hextract : request.Acts op entry .extract
    · rw [hwritten hextract, hwritten₁ ((hsame _).1 hextract)]
    · rw [hkept hextract, hkept₁ fun hacts => hextract ((hsame _).2 hacts)]
  | second hnone hsame =>
    obtain rfl : entry₁ = entry := h₁.unchanged hentry₁ hfound fun hselected action hact =>
      hnone action ⟨(h₁.mem_selected.1 hselected).2, hact⟩
    by_cases hextract : request.Acts op entry₁ .extract
    · rw [hwritten hextract, hwritten₂ ((hsame _).1 hextract)]
    · rw [hkept hextract, hkept₂ fun hacts => hextract ((hsame _).2 hacts), hkept₁ (hnone _)]

/-- Two commands that act once on each entry do what the third one does. The files hold the same,
and the nodes of the two documents have the same texts. -/
theorem Ran.composes (h : Ran W request op s b t) (h₁ : Ran W request₁ op₁ s b₁ t₁)
    (h₂ : Ran W request₂ op₂ t₁ b₂ t₂)
    (hacts : List.Forall₂ (ActsOnce request op request₁ op₁ request₂ op₂) b.inventory.entries
      b₂.inventory.entries) :
    SameWork (W.targets (W.view s)) (W.view t) (W.view t₂) := by
  obtain ⟨hbytes₁, hentries₁⟩ := h.shows_.unique h₁.shows_
  obtain ⟨hbytes₂, haligned⟩ := h₁.rediscovered h₂.shows_
  rw [hentries₁] at haligned
  have hboth := forall₂_and hacts haligned
  constructor
  case holds =>
    rintro path ⟨inventory, hshows, entry, hentry, rfl⟩
    rw [(h.shows_.unique hshows).2] at hentry
    obtain ⟨entry₁, hentry₂, hacts, hfound⟩ := exists_right_of_forall₂ hboth hentry
    exact h.holds_twice h₁ h₂ hentry (hentries₁ ▸ hentry) hentry₂ hfound hacts
  case nodes =>
    obtain ⟨i, hi, hstanding⟩ := h.standing
    obtain ⟨i₁, hi₁, hstanding₁⟩ := h₁.standing
    obtain ⟨i₂, hi₂, hstanding₂⟩ := h₂.standing
    obtain rfl := Option.some.inj (hi.symm.trans hi₁)
    obtain rfl := Option.some.inj (hstanding₁.document.symm.trans hi₂)
    obtain ⟨-, -, -, document, ds, hparse, hds, -⟩ := h.shows_.listed
    obtain ⟨-, -, -, document₁, ds₁, hparse₁, hds₁, -⟩ := h₂.shows_.listed
    obtain ⟨document', hparse', hupdated⟩ := materializeDocument_spec h.materialized hparse 1
    rw [← hbytes₁] at hparse
    obtain ⟨document₁', hparse₁', hupdated₁⟩ := materializeDocument_spec h₁.materialized hparse 1
    rw [← hbytes₂] at hparse₁'
    obtain rfl := Except.ok.inj (hparse₁.symm.trans hparse₁')
    obtain ⟨document₂, hparse₂, hupdated₂⟩ := materializeDocument_spec h₂.materialized hparse₁ 1
    refine ⟨i, _, _, document', document₂, hstanding.document, hstanding₂.document, hstanding.bytes,
      hstanding₂.bytes, hparse', hparse₂, ?_⟩
    refine nodeTexts_twice hupdated₁ hupdated₂ hupdated hds.valid hds₁.valid fun nodeIndex f => ?_
    by_cases hf : ∃ entry ∈ b.inventory.entries, f.path = entry.path
    · obtain ⟨entry, hentry, hpath⟩ := hf
      obtain ⟨entry₁, hentry₂, hacts, hfound⟩ := exists_right_of_forall₂ hboth hentry
      exact h.splits h₁ h₂ hentry (hentries₁ ▸ hentry) hentry₂ hfound hacts nodeIndex hpath
    · -- nothing is wanted where there is no entry
      rw [not_exists] at hf
      have hnone : ∀ {u : FragmentUpdate}, u ∈ (b.prepared.nodeUpdates.find? nodeIndex).getD [] →
          u.path ≠ f.path := fun hu hpath => by
        obtain ⟨entry, hentry, hentryPath⟩ := h.exists_entry hu
        exact hf entry ⟨hentry, hpath.symm.trans hentryPath⟩
      have hnone₁ : ∀ {u : FragmentUpdate}, u ∈ (b₁.prepared.nodeUpdates.find? nodeIndex).getD [] →
          u.path ≠ f.path := fun hu hpath => by
        obtain ⟨entry, hentry, hentryPath⟩ := h₁.exists_entry hu
        exact hf entry ⟨hentries₁ ▸ hentry, hpath.symm.trans hentryPath⟩
      refine .inl ⟨fun hmem => ?_, ?_⟩
      · obtain ⟨u, hu, hpath⟩ := List.mem_map.1 hmem
        obtain ⟨entry₁, hentry₂, hentryPath⟩ := h₂.exists_entry hu
        obtain ⟨entry, hentry, -, hfound⟩ := exists_left_of_forall₂ hboth hentry₂
        exact hf entry ⟨hentry, hpath.symm.trans (hentryPath.trans hfound.path)⟩
      · refine congrArg f.updated (wantedSource_congr (h.updates_nodup _) (h₁.updates_nodup _)
          fun u hu => iff_of_false (fun hmem => hnone hmem hu) fun hmem => hnone₁ hmem hu)

/-! ## `sync` and its directions -/

/-- The two directions in which texts are transferred, in either order. -/
def Directions (op₁ op₂ : Operation) : Prop :=
  op₁ = .embed false ∧ op₂ = .extract false ∨ op₁ = .extract false ∧ op₂ = .embed false

omit [Sha256] in
/-- Neither of the two directions is a forced one. -/
theorem Directions.forced (hops : Directions op₁ op₂) :
    op₁.forcedAction = none ∧ op₂.forcedAction = none := by
  rcases hops with ⟨rfl, rfl⟩ | ⟨rfl, rfl⟩ <;> exact ⟨rfl, rfl⟩

omit [Sha256] in
/-- `sync` decides what the first direction decides, if this acts, and else what the second does.
Only what is missing, and was selected by name, is left by it and extracted by the second. -/
theorem Directions.decision (hops : Directions op₁ op₂) {selection : SelectionKind}
    {c : Classification} (hmissing : c = .missing → selection = .all) :
    (∃ action, decision op₁ selection c = .act action ∧ decision .sync selection c = .act action) ∨
      (∀ action, decision op₁ selection c ≠ .act action) ∧
        decision op₂ selection c = decision .sync selection c := by
  cases c with
  | missing =>
    obtain rfl := hmissing rfl
    rcases hops with ⟨rfl, rfl⟩ | ⟨rfl, rfl⟩ <;> exact .inr ⟨(fun _ h => by cases h), rfl⟩
  | unadopted file =>
    cases file <;> rcases hops with ⟨rfl, rfl⟩ | ⟨rfl, rfl⟩ <;>
      first | exact .inl ⟨_, rfl, rfl⟩ | exact .inr ⟨(fun _ h => by cases h), rfl⟩
  | _ =>
    rcases hops with ⟨rfl, rfl⟩ | ⟨rfl, rfl⟩ <;>
      first | exact .inl ⟨_, rfl, rfl⟩ | exact .inr ⟨(fun _ h => by cases h), rfl⟩

/-- What is selected by name is not missing. -/
def NoneMissing (W : Workspace fs access paths) (request : Request) (s : σ) : Prop :=
  request.selectors ≠ [] → ∀ inventory, W.Shows (W.view s) inventory →
    ∀ entry ∈ chosen request.selectors inventory.entries, entry.classification ≠ .missing

/-- What is decided for an entry before and after the first direction. An entry that the first
direction acts on is settled for the second one. The others are as they were, and the second
direction decides about them as `sync` does. -/
structure Directed (request : Request) (op₁ op₂ : Operation) (entry entry₁ : InventoryEntry) :
    Prop where
  path : entry₁.path = entry.path
  decided : request.Selects entry.path →
    (∃ action, (decideEntry op₁ (selectionKind request.selectors) entry).2 = .act action ∧
      (decideEntry .sync (selectionKind request.selectors) entry).2 = .act action ∧
      (decideEntry op₂ (selectionKind request.selectors) entry₁).2 = .settled) ∨
    entry₁ = entry ∧
      (∀ action, (decideEntry op₁ (selectionKind request.selectors) entry).2 ≠ .act action) ∧
      (decideEntry op₂ (selectionKind request.selectors) entry).2 =
        (decideEntry .sync (selectionKind request.selectors) entry).2

/-- A missing fragment is chosen only by a request for all fragments. -/
theorem NoneMissing.all (h : NoneMissing W request s) {inventory : Inventory δ}
    (hshows : W.Shows (W.view s) inventory) {entry : InventoryEntry}
    (hentry : entry ∈ chosen request.selectors inventory.entries)
    (hc : entry.classification = .missing) : selectionKind request.selectors = .all := by
  rcases eq_or_ne request.selectors [] with hnil | hne
  · rw [hnil]
    rfl
  · exact absurd hc (h hne inventory hshows entry hentry)

/-- What a synchronization would replace can be spliced, so this holds of the first direction too:
it replaces no more than the synchronization does. -/
theorem Seamless.first (h : Seamless W request .sync s) (hops : Directions op₁ op₂)
    (hmissing : NoneMissing W request s) : Seamless W request op₁ s := by
  intro inventory document hshows hparse entry hentry hembed
  refine h inventory document hshows hparse entry hentry ?_
  rcases hops.decision (hmissing.all hshows hentry) with ⟨action, hact, hsync⟩ | ⟨hnone, -⟩
  · rw [show decision op₁ _ entry.classification = .act .embed from hembed] at hact
    exact hsync.trans hact.symm
  · exact absurd hembed (hnone .embed)

/-- Entry by entry, two runs in the two directions leave the fragment as one synchronization does.
The second run begins with the inventory that the first one leaves. -/
theorem Ran.directed (h₁ : Ran W (request.as (.mutate op₁)) op₁ s b₁ t₁)
    (h₂ : Ran W (request.as (.mutate op₂)) op₂ t₁ b₂ t₂) (hops : Directions op₁ op₂)
    (hseamless : Seamless W request .sync s) (hmissing : NoneMissing W request s) :
    List.Forall₂ (Directed request op₁ op₂) b₁.inventory.entries b₂.inventory.entries := by
  refine (h₁.found_again (hseamless.first hops hmissing) h₂.shows_).imp fun entry entry₁ hfound => ?_
  obtain ⟨hentry, hpath, hsynchronized, hkept⟩ := hfound
  refine ⟨hpath, fun hselects => ?_⟩
  have hselected := h₁.mem_selected.2 ⟨hentry, hselects⟩
  rcases hops.decision (hmissing.all h₁.shows_ (mem_chosen.2 ⟨hentry, hselects⟩)) with
    ⟨action, hact, hsync⟩ | ⟨hnone, hsame⟩
  · refine .inl ⟨action, hact, hsync, decideEntry_synchronized hops.forced.2 ?_⟩
    refine hsynchronized hselected fun state hunresolved => ?_
    cases hunresolved.symm.trans hact
  · exact .inr ⟨hkept fun _ => hnone, hnone, hsame⟩

/-- Each entry is acted on once. What the first direction has acted on is settled, and the rest is
left to the second one. -/
theorem Directed.actsOnce {entry entry₁ : InventoryEntry} (h : Directed request op₁ op₂ entry entry₁) :
    ActsOnce (request.as (.mutate .sync)) .sync (request.as (.mutate op₁)) op₁
      (request.as (.mutate op₂)) op₂ entry entry₁ := by
  by_cases hselected : request.Selects entry.path
  · rcases h.decided hselected with ⟨action, hact, hsync, hsettled⟩ | ⟨-, hnone, hsame⟩
    · refine .first (fun a => and_congr_right fun _ => ?_) fun a hacts => ?_
      · exact (hsync.trans hact.symm) ▸ Iff.rfl
      · cases hsettled.symm.trans hacts.2
    · refine .second (fun a hacts => hnone a hacts.2) fun a => and_congr_right fun _ => ?_
      exact hsame ▸ Iff.rfl
  · exact .second (fun _ hacts => hselected hacts.1) fun a =>
      iff_of_false (fun hacts => hselected hacts.1) fun hacts => hselected hacts.1

/-! ## The reports -/

omit [Sha256] in
/-- A selection of entries that are aligned is aligned. -/
theorem forall₂_chosen {R : InventoryEntry → InventoryEntry → Prop}
    {entries entries' : List InventoryEntry} (h : List.Forall₂ R entries entries')
    (hpath : ∀ entry entry', R entry entry' → entry'.path = entry.path)
    (selectors : List FragmentPath) :
    List.Forall₂ R (chosen selectors entries) (chosen selectors entries') := by
  unfold chosen
  split
  · exact h
  · refine List.rel_filter (fun entry entry' hentry => ?_) h
    simp only [hpath _ _ hentry]

/-- An action is reported. -/
def ReportEntry.isAction : ReportEntry → Bool
  | .action _ _ => true
  | .state _ _ => false

/-- `sync` reports the actions of the first direction and what the second one reports. The induction
is on the entries. Each of them is acted on by one of the directions, or by none. -/
theorem Directed.reports {entries entries₁ : List InventoryEntry}
    (h : List.Forall₂ (Directed request op₁ op₂) entries entries₁)
    (hselects : ∀ entry ∈ entries, request.Selects entry.path) :
    ((entries.map (decideEntry .sync (selectionKind request.selectors))).filterMap reportOf).Perm
      (((entries.map (decideEntry op₁ (selectionKind request.selectors))).filterMap
          reportOf).filter ReportEntry.isAction ++
        (entries₁.map (decideEntry op₂ (selectionKind request.selectors))).filterMap reportOf) := by
  induction h with
  | nil => exact .nil
  | @cons entry entry₁ entries entries₁ hentry _ ih =>
    rw [List.forall_mem_cons] at hselects
    have ih := ih hselects.2
    simp only [List.map_cons]
    rcases hentry.decided hselects.1 with ⟨action, hact, hsync, hsettled⟩ | ⟨rfl, hnone, hsame⟩
    · rw [List.filterMap_cons_some (b := .action entry.path action) (by rw [reportOf, hsync]; rfl),
        List.filterMap_cons_some (b := .action entry.path action) (by rw [reportOf, hact]; rfl),
        List.filterMap_cons_none (by rw [reportOf, hsettled])]
      exact ih.cons _
    · have hfirst : (reportOf (decideEntry op₁ (selectionKind request.selectors) entry₁)).all
          (fun e => ¬ e.isAction) = true := by
        cases hd : (decideEntry op₁ (selectionKind request.selectors) entry₁).2 with
        | settled | unresolved found =>
          rw [reportOf, hd]
          rfl
        | act action => exact absurd hd (hnone action)
      have hsecond : reportOf (decideEntry op₂ (selectionKind request.selectors) entry₁) =
          reportOf (decideEntry .sync (selectionKind request.selectors) entry₁) := by
        rw [reportOf, reportOf, hsame]
        rfl
      have hfiltered : (((decideEntry op₁ (selectionKind request.selectors) entry₁) ::
          entries.map (decideEntry op₁ (selectionKind request.selectors))).filterMap
            reportOf).filter ReportEntry.isAction =
          ((entries.map (decideEntry op₁ (selectionKind request.selectors))).filterMap
            reportOf).filter ReportEntry.isAction := by
        rw [List.filterMap_cons]
        cases ho : reportOf (decideEntry op₁ (selectionKind request.selectors) entry₁) with
        | none => rfl
        | some e =>
          rw [ho] at hfirst
          exact List.filter_cons_of_neg (by simpa using hfirst)
      rw [hfiltered, List.filterMap_cons, List.filterMap_cons, hsecond]
      cases reportOf (decideEntry .sync (selectionKind request.selectors) entry₁) with
      | none => exact ih
      | some e => exact (ih.cons e).trans List.perm_middle.symm

/-- What `sync` does is done by one direction behind the other. Each entry is transferred by one of
the two, and `Ran.composes` puts them together. -/
theorem Ran.directions {b : Batch δ} (h : Ran W (request.as (.mutate .sync)) .sync s b t)
    (h₁ : Ran W (request.as (.mutate op₁)) op₁ s b₁ t₁)
    (h₂ : Ran W (request.as (.mutate op₂)) op₂ t₁ b₂ t₂) (hops : Directions op₁ op₂)
    (hseamless : Seamless W request .sync s) (hmissing : NoneMissing W request s) :
    SameWork (W.targets (W.view s)) (W.view t) (W.view t₂) ∧
      MergesReports b.report.entries (b₁.report.entries.filter ReportEntry.isAction)
        b₂.report.entries ∧
      b₂.report.exit = b.report.exit := by
  have hdirected := h₁.directed h₂ hops hseamless hmissing
  obtain ⟨-, hentries⟩ := h.shows_.unique h₁.shows_
  have hselected := forall₂_chosen hdirected (fun _ _ hentry => hentry.path) request.selectors
  have hperm := Directed.reports hselected fun entry hentry => (mem_chosen.1 hentry).2
  have hmerges : MergesReports b.report.entries (b₁.report.entries.filter ReportEntry.isAction)
      b₂.report.entries := by
    refine ⟨?_, ?_⟩
    · rw [Batch.report, Batch.report, Batch.report, h.prepared.report, h₁.prepared.report,
        h₂.prepared.report, h.selected, h₁.selected, h₂.selected, ← hentries]
      exact hperm
    · rw [Batch.report, h.prepared.report, h.selected]
      exact reports_sorted (h.order.chosen _) _ _
  refine ⟨h.composes h₁ h₂ (hentries ▸ hdirected.imp fun _ _ hentry => hentry.actsOnce), hmerges, ?_⟩
  have hexit : b₂.report.exit = .attention ↔ b.report.exit = .attention := by
    rw [show b₂.report.exit = .attention ↔ _ from h₂.prepared.exit,
      show b.report.exit = .attention ↔ _ from h.prepared.exit]
    constructor
    · rintro ⟨e, he, hisState⟩
      exact ⟨e, hmerges.1.mem_iff.2 (List.mem_append.2 (.inr he)), hisState⟩
    · rintro ⟨e, he, hisState⟩
      rcases List.mem_append.1 (hmerges.1.mem_iff.1 he) with hmem | hmem
      · cases e with
        | action path action => cases hisState
        | state path found => cases (List.mem_filter.1 hmem).2
      · exact ⟨e, hmem, hisState⟩
  cases hb : b.report.exit with
  | attention => exact hexit.2 hb
  | synchronized =>
    cases hb₂ : b₂.report.exit with
    | synchronized => rfl
    | attention => cases hb.symm.trans (hexit.1 hb₂)

/-- `sync` is both directions. Where the targets are separate, nothing is lost behind a CR, and
nothing that is selected by name is missing, it leaves the same files and the same texts of the
nodes as `embed` and `extract` do, one behind the other, in either order. It reports the actions of
the first and what the second reports, and has the exit state of the second. -/
theorem sync_eq_directions
    (hpaths : resolvePaths request.cwd request.document request.sourceRoot = .ok paths)
    (hseparate : W.Separate (W.targets (W.view s))) (hseamless : Seamless W request .sync s)
    (hmissing : NoneMissing W request s) (hops : Directions op₁ op₂)
    {report report₁ report₂ : Report}
    (hrun : Executes fs access (request.as (.mutate .sync)) s (.ok report) t)
    (hrun₁ : Executes fs access (request.as (.mutate op₁)) s (.ok report₁) t₁)
    (hrun₂ : Executes fs access (request.as (.mutate op₂)) t₁ (.ok report₂) t₂) :
    SameWork (W.targets (W.view s)) (W.view t) (W.view t₂) ∧
      MergesReports report.entries (report₁.entries.filter ReportEntry.isAction) report₂.entries ∧
      report₂.exit = report.exit := by
  obtain ⟨b, h, rfl⟩ := @exists_ran _ _ _ _ _ _ _ _ W (request.as (.mutate .sync)) .sync _ _
    hpaths rfl hseparate _ hrun
  obtain ⟨b₁, h₁, rfl⟩ := @exists_ran _ _ _ _ _ _ _ _ W (request.as (.mutate op₁)) op₁ _ _
    hpaths rfl hseparate _ hrun₁
  obtain ⟨b₂, h₂, rfl⟩ := @exists_ran _ _ _ _ _ _ _ _ W (request.as (.mutate op₂)) op₂ _ _
    hpaths rfl (hseparate.mono h₁.targets_subset) _ hrun₂
  exact h.directions h₁ h₂ hops hseamless hmissing

end

/-! ## A sample -/

/-- Runs an operation on all fragments of the document. -/
def runAll (op : Operation) (t : Tree) :
    Except (PolicyFailure (EngineAccessFailure Empty) Error) Report × Tree :=
  @executeWithAccess lfDigest _ _ _ _ (treeFilesystem []) AccessPolicy.direct
    (sampleRequest.as (.mutate op)) t

/-- Where there are no files nothing is embedded. -/
theorem pairTree_seamless :
    @Seamless _ _ _ _ _ _ _ lfDigest sampleWorkspace sampleRequest .sync pairTree := by
  obtain ⟨inventory, hshows, hnone⟩ := @shows_of_any pairTree
    (fun inventory => inventory.entries.all fun entry => entry.filesystem.isNone)
    (by decide +kernel)
  intro inventory' document hshows' _ entry hentry _ source hsource
  have hmem := (mem_chosen.1 hentry).1
  rw [(hshows.unique hshows').2] at hmem
  have hisNone := List.all_eq_true.1 hnone entry hmem
  rw [hsource] at hisNone
  cases hisNone

/-- Two fragments are extracted by `sync`, and by the direction in which they are transferred. Here
`embed` comes first and finds nothing to do. -/
theorem sync_eq_directions_sample : ∃ report report₁ report₂ : Report,
    SameWork (sampleWorkspace.targets (sampleWorkspace.view pairTree))
      (sampleWorkspace.view (runAll .sync pairTree).2)
      (sampleWorkspace.view (runAll (.extract false) (runAll (.embed false) pairTree).2).2) ∧
    MergesReports report.entries (report₁.entries.filter ReportEntry.isAction) report₂.entries ∧
    report₂.exit = report.exit := by
  obtain ⟨report, hrun⟩ := @exists_of_isOk _ _ _ (runAll .sync pairTree) (by decide +kernel)
  obtain ⟨report₁, hrun₁⟩ := @exists_of_isOk _ _ _ (runAll (.embed false) pairTree)
    (by decide +kernel)
  obtain ⟨report₂, hrun₂⟩ := @exists_of_isOk _ _ _
    (runAll (.extract false) (runAll (.embed false) pairTree).2) (by decide +kernel)
  exact ⟨report, report₁, report₂, @sync_eq_directions lfDigest _ _ _ _ _ _ _ sampleWorkspace
    sampleRequest (.embed false) (.extract false) _ _ _ _ rfl (sampleTargets_separate _)
    pairTree_seamless (fun hne => absurd rfl hne) (.inl ⟨rfl, rfl⟩) _ _ _ hrun hrun₁ hrun₂⟩

end Zwirn.Sync
