import Zwirn.Sync.Entries

/-!
# The prepared batch

`prepare` collects, from the decisions of a batch, the updates of each node, the fragments to
extract and the report. `prepare_eq_ok` says what it collects, and `prepareOutputs_eq_ok` what a
mutating command has prepared in terms of the classifications of the selected fragments.
-/

namespace Zwirn.Sync

open Lib Fragment Adls

/-! ## What is collected -/

/-- The update of the document that a decision needs. -/
def updateOf (d : InventoryEntry × Decision) : Option FragmentUpdate :=
  match d.2 with
  | .act .record | .act .extract => some (.record d.1.path)
  | .act .embed => d.1.filesystem.map (.replace d.1.path)
  | .settled | .unresolved _ => none

/-- What is reported of a decision. -/
def reportOf (d : InventoryEntry × Decision) : Option ReportEntry :=
  match d.2 with
  | .settled => none
  | .unresolved state => some (.state d.1.path state)
  | .act action => some (.action d.1.path action)

/-- The decision leaves the fragment for the user. -/
def Decision.IsUnresolved : Decision → Prop
  | .unresolved _ => True
  | _ => False

instance (d : Decision) : Decidable d.IsUnresolved := by
  cases d <;> unfold Decision.IsUnresolved <;> infer_instance

/-- The updates of one node, in the order of the decisions. -/
def updatesAt (ds : List (InventoryEntry × Decision)) (nodeIndex : Nat) : List FragmentUpdate :=
  (ds.filter fun d => d.1.nodeIndex = nodeIndex).filterMap updateOf

/-- An update has the path of its decision. -/
theorem updateOf_path {d : InventoryEntry × Decision} {u : FragmentUpdate}
    (h : updateOf d = some u) : u.path = d.1.path := by
  obtain ⟨entry, decision⟩ := d
  cases decision with
  | settled | unresolved state => cases h
  | act action =>
    cases action with
    | record | extract => cases h; rfl
    | embed =>
      obtain ⟨source, -, rfl⟩ := Option.map_eq_some_iff.1 h
      rfl

/-- What is updated is acted on. -/
theorem updateOf_acts {d : InventoryEntry × Decision} {u : FragmentUpdate}
    (h : updateOf d = some u) : ∃ action, d.2 = .act action := by
  obtain ⟨entry, decision⟩ := d
  cases decision with
  | settled | unresolved state => cases h
  | act action => exact ⟨action, rfl⟩

/-- What is replaced is embedded from the file. Only an embed replaces a text. -/
theorem updateOf_eq_replace {d : InventoryEntry × Decision} {path : FragmentPath}
    {source : CanonicalSource} (h : updateOf d = some (.replace path source)) :
    d.2 = .act .embed ∧ d.1.filesystem = some source := by
  obtain ⟨e, decision⟩ := d
  cases decision with
  | settled | unresolved state => cases h
  | act action =>
    cases action with
    | record | extract => cases h
    | embed =>
      obtain ⟨source', hsource, heq⟩ := Option.map_eq_some_iff.1 h
      cases heq
      exact ⟨rfl, hsource⟩

/-- The updates at a node are those of the decisions about it. -/
theorem mem_updatesAt {ds : List (InventoryEntry × Decision)} {nodeIndex : Nat}
    {u : FragmentUpdate} :
    u ∈ updatesAt ds nodeIndex ↔ ∃ d ∈ ds, d.1.nodeIndex = nodeIndex ∧ updateOf d = some u := by
  simp [updatesAt, and_assoc]

/-- The updates of a node stand in the order of the decisions. So where the decisions are about
different paths the updates are too. -/
theorem map_path_updatesAt (ds : List (InventoryEntry × Decision)) (nodeIndex : Nat) :
    ((updatesAt ds nodeIndex).map FragmentUpdate.path).Sublist (ds.map fun d => d.1.path) := by
  unfold updatesAt
  induction ds with
  | nil => exact .slnil
  | cons d ds ih =>
    rw [List.map_cons]
    by_cases hd : d.1.nodeIndex = nodeIndex
    · rw [List.filter_cons_of_pos (by simpa using hd)]
      cases hu : updateOf d with
      | none =>
        rw [List.filterMap_cons_none hu]
        exact ih.cons _
      | some u =>
        rw [List.filterMap_cons_some hu, List.map_cons, updateOf_path hu]
        exact ih.cons_cons _
    · rw [List.filter_cons_of_neg (by simpa using hd)]
      exact ih.cons _

/-- The batch collected from decisions. The outputs, the updates and the report are each collected
in the order of the entries. -/
structure PreparedFrom (ds : List (InventoryEntry × Decision)) (p : Prepared) : Prop where
  extracted : p.extracted = (ds.filter fun d => d.2 = .act .extract).map (·.1)
  report : p.reportEntries = ds.filterMap reportOf
  attention : p.attention = true ↔ ∃ d ∈ ds, d.2.IsUnresolved
  updates : ∀ i, (p.nodeUpdates.find? i).getD [] = updatesAt ds i
  nonempty : ∀ i, p.nodeUpdates.find? i ≠ some []
  sources : ∀ d ∈ ds, d.2 = .act .embed → d.1.filesystem.isSome

/-- An action updates the document as its decision says. Only an embed of a missing file would
panic. -/
theorem actionUpdate_eq_ok {entry : InventoryEntry} {action : Action} {update : FragmentUpdate} :
    actionUpdate entry action = .ok update ↔ updateOf (entry, .act action) = some update := by
  cases action with
  | record | extract => simp [actionUpdate, updateOf]
  | embed =>
    unfold actionUpdate updateOf
    cases entry.filesystem with
    | none => exact iff_of_false (fun h => by cases h) (fun h => by cases h)
    | some source => exact ⟨fun h => by cases h; rfl, fun h => by cases h; rfl⟩

/-- One more decision is entered as it should be, behind those that are entered already. Each of its
parts grows by what this decision means for it: the updates of its node, the extracted entries, the
lines and the attention. -/
theorem prepareOne_preparedFrom {ds : List (InventoryEntry × Decision)} {p p' : Prepared}
    (h : PreparedFrom ds p) {d : InventoryEntry × Decision} (hd : prepareOne p d = .ok p') :
    PreparedFrom (ds ++ [d]) p' := by
  obtain ⟨entry, d⟩ := d
  have hupdates : ∀ i, updatesAt (ds ++ [(entry, d)]) i =
      updatesAt ds i ++ if entry.nodeIndex = i then (updateOf (entry, d)).toList else [] := by
    intro i
    unfold updatesAt
    rw [List.filter_append, List.filterMap_append]
    by_cases hi : entry.nodeIndex = i
    · cases hu : updateOf (entry, d) <;> simp [hi, hu]
    · simp [hi]
  have hsources : (d = .act .embed → entry.filesystem.isSome) → ∀ d' ∈ ds ++ [(entry, d)],
      d'.2 = .act .embed → d'.1.filesystem.isSome := by
    intro hnew d' hd' hembed
    rcases List.mem_append.1 hd' with hd' | hd'
    · exact h.sources d' hd' hembed
    · rw [List.mem_singleton.1 hd'] at hembed ⊢
      exact hnew hembed
  cases d with
  | settled =>
    cases hd
    refine ⟨?_, ?_, ?_, fun i => ?_, h.nonempty, hsources (fun h => by cases h)⟩
    · simp [h.extracted]
    · simp [h.report, reportOf]
    · simp [h.attention, Decision.IsUnresolved]
    · simp [h.updates, hupdates, updateOf]
  | unresolved state =>
    cases hd
    refine ⟨?_, ?_, ?_, fun i => ?_, h.nonempty, hsources (fun h => by cases h)⟩
    · simp [h.extracted]
    · simp [h.report, reportOf]
    · simp [Decision.IsUnresolved]
    · simp [h.updates, hupdates, updateOf]
  | act action =>
    simp only [prepareOne, Except.bind_eq_ok, actionUpdate_eq_ok] at hd
    obtain ⟨update, hupdate, hd⟩ := hd
    cases hd
    have hfind : ∀ i, (p.nodeUpdates.alter entry.nodeIndex fun updates =>
        updates.getD [] ++ [update]).find? i = if i = entry.nodeIndex then
          some ((p.nodeUpdates.find? entry.nodeIndex).getD [] ++ [update])
        else p.nodeUpdates.find? i := fun i => OrdMap.find?_insert _ _ _ _
    refine ⟨?_, ?_, ?_, fun i => ?_, fun i => ?_, hsources fun hembed => ?_⟩
    · by_cases ha : action = .extract <;> simp [ha, h.extracted]
    · simp [h.report, reportOf]
    · simp [h.attention, Decision.IsUnresolved]
    · rw [hfind, hupdates]
      by_cases hi : i = entry.nodeIndex
      · subst hi
        simp [h.updates, hupdate]
      · rw [if_neg hi, if_neg (Ne.symm hi), h.updates, List.append_nil]
    · rw [hfind]
      split
      · simp
      · exact h.nonempty i
    · cases hembed
      obtain ⟨source, hsource, -⟩ := Option.map_eq_some_iff.1 hupdate
      exact Option.isSome_iff_exists.2 ⟨source, hsource⟩

/-- What a batch is collected from. The induction adds one decision behind the others. -/
theorem prepare_eq_ok {ds : List (InventoryEntry × Decision)} {p : Prepared}
    (h : prepare ds = .ok p) : PreparedFrom ds p := by
  induction ds using List.reverseRecOn generalizing p with
  | nil =>
    cases h
    exact ⟨rfl, rfl, by simp, fun _ => rfl, (fun _ h => by cases h), by simp⟩
  | append_singleton ds d ih =>
    obtain ⟨p', hp', h⟩ := foldlM_append_eq_ok.1 h
    rw [List.foldlM_cons, Except.bind_eq_ok] at h
    obtain ⟨p'', hd, h⟩ := h
    cases h
    exact prepareOne_preparedFrom (ih hp') hd

/-- A batch is collected when what is to be embedded has a file. The only failure of the loop is the
panic of an embed without a file. -/
theorem prepare_ok {ds : List (InventoryEntry × Decision)}
    (h : ∀ d ∈ ds, d.2 = .act .embed → d.1.filesystem.isSome) : ∃ p, prepare ds = .ok p := by
  suffices ∀ p : Prepared, ∃ p', ds.foldlM prepareOne p = .ok p' from this _
  induction ds with
  | nil => exact fun p => ⟨p, rfl⟩
  | cons d ds ih =>
    intro p
    rw [List.forall_mem_cons] at h
    have hone : ∃ p', prepareOne p d = .ok p' := by
      obtain ⟨entry, d⟩ := d
      cases d with
      | settled => exact ⟨p, rfl⟩
      | unresolved state => exact ⟨_, rfl⟩
      | act action =>
        have hupdate : ∃ update, updateOf (entry, .act action) = some update := by
          cases action with
          | record | extract => exact ⟨_, rfl⟩
          | embed =>
            obtain ⟨source, hsource⟩ := Option.isSome_iff_exists.1 (h.1 rfl)
            exact ⟨_, Option.map_eq_some_iff.2 ⟨source, hsource, rfl⟩⟩
        obtain ⟨update, hupdate⟩ := hupdate
        refine ⟨_, Except.bind_eq_ok.2 ⟨update, actionUpdate_eq_ok.2 hupdate, rfl⟩⟩
    obtain ⟨p', hp'⟩ := hone
    obtain ⟨p'', hp''⟩ := ih h.2 p'
    exact ⟨p'', by rw [List.foldlM_cons, Except.bind_eq_ok]; exact ⟨p', hp', hp''⟩⟩

/-! ## The selected entries -/

section
variable [Sha256]

/-- An entry with what is decided for it. -/
def decideEntry (op : Operation) (selection : SelectionKind) (entry : InventoryEntry) :
    InventoryEntry × Decision :=
  (entry, decision op selection (classify entry.embedded entry.baseline entry.filesystem))

/-- A forced operation acts on an explicit selection of conflicts. -/
def ForcedOnConflicts (op : Operation) (selection : SelectionKind)
    (selected : List InventoryEntry) : Prop :=
  op.forcedAction ≠ none → selection = .explicit ∧ selected ≠ [] ∧
    ∀ entry ∈ selected, (classify entry.embedded entry.baseline entry.filesystem).IsConflict

/-- The selected entries with their decisions are the entries, each decided by itself. -/
theorem zip_decisions (op : Operation) (selection : SelectionKind)
    (selected : List InventoryEntry) : ((classifyEntries selected).map (·.1)).zip
      (((classifyEntries selected).map (·.2)).map (decision op selection)) =
        selected.map (decideEntry op selection) := by
  rw [classifyEntries, List.map_map, List.map_map, List.map_map, List.zip_map']
  rfl

/-- What the planner asks of a forced operation is that every selected fragment is in conflict, and
that there is a selection. -/
theorem forcedOnConflicts_iff {op : Operation} {selection : SelectionKind}
    {selected : List InventoryEntry} : (op.forcedAction ≠ none → selection = .explicit ∧
      (classifyEntries selected).map (·.2) ≠ [] ∧
        ∀ c ∈ (classifyEntries selected).map (·.2), c.IsConflict) ↔
      ForcedOnConflicts op selection selected := by
  unfold ForcedOnConflicts classifyEntries
  simp only [List.map_map, ne_eq, List.map_eq_nil_iff, List.forall_mem_map, Function.comp_apply]

/-- A mutating command has prepared what was decided for the selected entries. The plan, the
collection and the new document are its three stages. -/
theorem prepareOutputs_eq_ok {bytes : Bytes} {selected : List InventoryEntry}
    {selection : SelectionKind} {op : Operation} {prepared : Prepared} {output : Option Bytes} :
    prepareOutputs bytes (classifyEntries selected) selection op = .ok (prepared, output) ↔
      ForcedOnConflicts op selection selected ∧
      prepare (selected.map (decideEntry op selection)) = .ok prepared ∧
      materializeDocument bytes prepared.nodeUpdates = .ok output := by
  simp only [prepareOutputs, Except.bind_eq_ok, mapError_eq_ok, plan_eq_ok,
    forcedOnConflicts_iff, Except.pure_eq_ok, Prod.mk.injEq]
  refine ⟨fun h => ?_, fun h => ?_⟩
  · obtain ⟨_, ⟨rfl, hconflicts⟩, _, hprepare, _, hmaterialize, rfl, rfl⟩ := h
    rw [zip_decisions] at hprepare
    exact ⟨hconflicts, hprepare, hmaterialize⟩
  · obtain ⟨hconflicts, hprepare, hmaterialize⟩ := h
    exact ⟨_, ⟨rfl, hconflicts⟩, prepared, by rw [zip_decisions]; exact hprepare, output, hmaterialize,
      rfl, rfl⟩

/-- The selected entries are extracted in strict path order. -/
theorem PreparedFrom.extracted_sorted {op : Operation} {selection : SelectionKind}
    {selected : List InventoryEntry} {prepared : Prepared}
    (h : PreparedFrom (selected.map (decideEntry op selection)) prepared)
    (hselected : InPathOrder selected) :
    ((prepared.extracted.map externalOutput).map ExternalOutput.path).Pairwise (· < ·) := by
  rw [h.extracted, List.map_map, List.map_map]
  refine (List.Pairwise.sublist (List.filter_sublist.map _)) ?_
  rw [List.map_map]
  exact hselected

/-- What is extracted was selected. An output is one for each decision to extract. -/
theorem PreparedFrom.mem_extracted {op : Operation} {selection : SelectionKind}
    {selected : List InventoryEntry} {prepared : Prepared}
    (h : PreparedFrom (selected.map (decideEntry op selection)) prepared) {entry : InventoryEntry} :
    entry ∈ prepared.extracted ↔
      entry ∈ selected ∧ (decideEntry op selection entry).2 = .act .extract := by
  rw [h.extracted, List.mem_map]
  refine ⟨fun hentry => ?_, fun hentry => ?_⟩
  · obtain ⟨d, hd, rfl⟩ := hentry
    obtain ⟨hd, hextract⟩ := List.mem_filter.1 hd
    obtain ⟨entry, hentry, rfl⟩ := List.mem_map.1 hd
    exact ⟨hentry, of_decide_eq_true hextract⟩
  · exact ⟨decideEntry op selection entry, List.mem_filter.2
      ⟨List.mem_map_of_mem hentry.1, by simpa using hentry.2⟩, rfl⟩

/-- An update is the one of an entry. The decision of the entry is the one it comes from. -/
theorem mem_updatesAt_decideEntry {op : Operation} {selection : SelectionKind}
    {entries : List InventoryEntry} {nodeIndex : Nat} {u : FragmentUpdate} :
    u ∈ updatesAt (entries.map (decideEntry op selection)) nodeIndex ↔
      ∃ entry ∈ entries, entry.nodeIndex = nodeIndex ∧
        updateOf (decideEntry op selection entry) = some u := by
  rw [mem_updatesAt]
  refine ⟨fun h => ?_, fun h => ?_⟩
  · obtain ⟨d, hd, hindex, hupdate⟩ := h
    obtain ⟨entry, hentry, rfl⟩ := List.mem_map.1 hd
    exact ⟨entry, hentry, hindex, hupdate⟩
  · obtain ⟨entry, hentry, hindex, hupdate⟩ := h
    exact ⟨_, List.mem_map_of_mem hentry, hindex, hupdate⟩

end

end Zwirn.Sync
