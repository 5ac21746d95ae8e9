import Zwirn.Sync.Runs

/-!
# What status foretells

A status run writes nothing and reports the states of the selected fragments in path order. From
such a report it can be read what any mutating command does that finds the same disk
(`status_foretells`): what it reports of each fragment (`foretold`), which fragment a forced command
refuses, and that nothing is written where everything is synchronized. Of an unadopted fragment one
has to know in addition whether it has a file.
-/

namespace Zwirn.Sync

open Lib Fragment Adls

/-! ## The report of a command -/

/-- What a command reports of a fragment whose state status reports. Of an unadopted one it depends
also on whether it has a file, whose text is then the embedded one. -/
def foretold (op : Operation) (selection : SelectionKind) (hasFile : Bool) (path : FragmentPath)
    (state : State) : Option ReportEntry :=
  match op.forcedAction, state with
  | some action, _ => some (.action path action)
  | none, .synchronized => none
  | none, .converged => some (.action path .record)
  | none, .unadopted =>
    if hasFile then some (.action path .record)
    else if op = .embed false then some (.state path state)
    else some (.action path .extract)
  | none, .missing =>
    if op = .extract false ∧ selection = .explicit then some (.action path .extract)
    else some (.state path state)
  | none, .extract =>
    if op = .embed false then some (.state path state) else some (.action path .extract)
  | none, .embed =>
    if op = .extract false then some (.state path state) else some (.action path .embed)
  | none, .conflict | none, .unadoptedConflict => some (.state path state)

/-- What is foretold of a line of a status report, where the disk tells which fragments have a file.
-/
def ReportEntry.foretold {φ : Type} (op : Operation) (selection : SelectionKind) (d : Disk φ) :
    ReportEntry → Option ReportEntry
  | .state path found => Sync.foretold op selection (d.target path).isSome path found
  | .action _ _ => none

section
variable [Sha256] {σ δ φ ε : Type} {fs : FileSystem σ δ φ} {access : AccessPolicy σ ε}
  {paths : ResolvedPaths} {W : Workspace fs access paths} {request : Request} {op : Operation}
  {s t u v : σ}

/-- What is foretold of an entry is what is reported of its decision. The cases are those of the
table of classifications, as an unadopted entry is told apart by its file. -/
theorem reportOf_decideEntry (op : Operation) (selection : SelectionKind) (entry : InventoryEntry) :
    reportOf (decideEntry op selection entry) =
      foretold op selection entry.filesystem.isSome entry.path entry.classification.state := by
  obtain ⟨nodeIndex, path, embedded, baseline, target, filesystem⟩ := entry
  have hc := classified embedded baseline filesystem
  rw [decideEntry]
  dsimp only [InventoryEntry.classification]
  generalize classify embedded baseline filesystem = c at hc
  cases hc with
  | missing =>
    cases op with
    | embed force | extract force => cases force <;> cases selection <;> rfl
    | sync => cases selection <;> rfl
  | _ =>
    cases op with
    | embed force | extract force => cases force <;> rfl
    | sync => rfl

omit [Sha256] in
/-- What is found at a target tells whether there is a file. -/
theorem Disk.Finds.isSome {d : Disk φ} {path : FragmentPath} {found : Option CanonicalSource}
    (h : d.Finds path found) : found.isSome = (d.target path).isSome := by
  cases h with
  | absent hnone => rw [hnone]; rfl
  | present htarget => rw [htarget]; rfl

/-! ## Status runs -/

/-- A request with another mode. -/
def Request.as (request : Request) (mode : Mode) : Request := { request with mode }

/-- What is selected of the inventory of a disk is reported. A status leaves the disk as it is,
since it only discovers. -/
theorem exists_shown
    (hpaths : resolvePaths request.cwd request.document request.sourceRoot = .ok paths)
    (hmode : request.mode = .status) {report : Report}
    (hrun : Executes fs access request s (.ok report) t) :
    W.view t = W.view s ∧ ∃ inventory, W.Shows (W.view s) inventory ∧
      (∀ selector ∈ request.selectors, selector ∈ inventory.entries.map InventoryEntry.path) ∧
      report = statusReport (classifyEntries (chosen request.selectors inventory.entries)) := by
  obtain ⟨paths', s₁, hpaths', h₁⟩ := Run.bind_eq_ok.1 hrun
  obtain ⟨inventory, s₂, hinventory, h₂⟩ := Run.bind_eq_ok.1 h₁
  obtain ⟨selected, s₃, hselected, h₃⟩ := Run.bind_eq_ok.1 h₂
  rw [hmode] at h₃
  rw [operation_eq_ok] at hpaths' hselected
  obtain ⟨hpaths', rfl⟩ := hpaths'
  obtain ⟨hselected, rfl⟩ := hselected
  obtain rfl := Except.ok.inj (hpaths.symm.trans hpaths')
  have hdiscovered := Run.mapError_eq_ok.1 hinventory
  obtain ⟨ds, hds⟩ := discoverForDocument_discovers hdiscovered
  obtain ⟨hselectors, rfl⟩ :=
    (Inventory.select_eq_ok hds.sorted).1 (mapError_eq_ok.1 hselected)
  obtain ⟨hview, hshows⟩ := (discoverForDocument_observes W).eq_ok rfl hdiscovered
  cases h₃
  exact ⟨hview, inventory, hshows, hselectors, rfl⟩

/-- The report of a status run. -/
theorem statusReport_entries (selected : List InventoryEntry) :
    (statusReport (classifyEntries selected)).entries =
      selected.map fun entry => .state entry.path entry.classification.state := by
  rw [statusReport, classifyEntries, List.map_map]
  rfl

/-- The status is synchronized exactly if every selected fragment is. No other state counts as
synchronized. -/
theorem statusReport_exit (selected : List InventoryEntry) :
    (statusReport (classifyEntries selected)).exit = .synchronized ↔
      ∀ entry ∈ selected, entry.classification = .synchronized := by
  have hstate : ∀ c : Classification, c.state = .synchronized ↔ c = .synchronized := by
    intro c
    cases c <;> simp [Classification.state]
  rw [statusReport, exitState]
  split
  · next hany =>
    refine iff_of_false (by simp) fun hall => ?_
    obtain ⟨c, hc, hne⟩ := List.any_eq_true.1 hany
    obtain ⟨entry, hentry, rfl⟩ := List.mem_map.1 hc
    exact of_decide_eq_true hne ((hstate _).2 (hall entry hentry))
  · next hany =>
    refine iff_of_true rfl fun entry hentry => ?_
    by_contra hne
    refine hany (List.any_eq_true.2 ⟨_, List.mem_map_of_mem hentry, ?_⟩)
    exact decide_eq_true fun h => hne ((hstate _).1 h)

/-! ## What it foretells -/

/-- The report entry has a state in which a fragment cannot be forced. -/
def ReportEntry.NotForcible : ReportEntry → Prop
  | .state _ found => ¬ (found = .conflict ∨ found = .unadoptedConflict)
  | .action _ _ => False

instance (e : ReportEntry) : Decidable e.NotForcible := by
  cases e <;> unfold ReportEntry.NotForcible <;> infer_instance

/-- The error of a forced command on the fragments that status has reported. -/
def Report.refusal (report : Report) (selectors : List FragmentPath) : Option Error :=
  if selectors = [] then some .forceRequiresExplicitSelection
  else (report.entries.find? fun e => e.NotForcible).bind fun e =>
    match e with
    | .state path found => some (.invalidForcedState path found)
    | .action _ _ => none

/-- What a mutating command reports is what is foretold of what status reports. -/
theorem PreparedFrom.foretold {selected : List InventoryEntry} {selection : SelectionKind}
    {prepared : Prepared} (h : PreparedFrom (selected.map (decideEntry op selection)) prepared)
    {d : Disk φ} (hfound : ∀ entry ∈ selected, d.Finds entry.path entry.filesystem) :
    prepared.reportEntries =
      (statusReport (classifyEntries selected)).entries.filterMap
        (ReportEntry.foretold op selection d) := by
  rw [h.report, statusReport_entries, List.filterMap_map, List.filterMap_map]
  refine List.filterMap_congr fun entry hentry => ?_
  rw [Function.comp_apply, Function.comp_apply, reportOf_decideEntry, ReportEntry.foretold,
    (hfound entry hentry).isSome]

omit [Sha256] in
/-- The exit state tells whether the report has a state. An unresolved decision is reported by a
state, and no other decision is. -/
theorem PreparedFrom.exit {ds : List (InventoryEntry × Decision)} {prepared : Prepared}
    (h : PreparedFrom ds prepared) : exitState prepared.attention = .attention ↔
      ∃ e ∈ prepared.reportEntries, e.IsState := by
  have hstate : ∀ d : InventoryEntry × Decision, d.2.IsUnresolved ↔
      ∃ e, reportOf d = some e ∧ e.IsState := by
    rintro ⟨entry, d⟩
    cases d <;> simp [reportOf, Decision.IsUnresolved, ReportEntry.IsState]
  rw [show exitState prepared.attention = .attention ↔ prepared.attention = true by
    cases prepared.attention <;> simp [exitState], h.attention, h.report]
  constructor
  · rintro ⟨d, hd, hunresolved⟩
    obtain ⟨e, he, hisState⟩ := (hstate d).1 hunresolved
    exact ⟨e, List.mem_filterMap.2 ⟨d, hd, he⟩, hisState⟩
  · rintro ⟨e, hmem, hisState⟩
    obtain ⟨d, hd, he⟩ := List.mem_filterMap.1 hmem
    exact ⟨d, hd, (hstate d).2 ⟨e, he, hisState⟩⟩

/-- Nothing is reported where everything is synchronized. Without force, settled entries are the
only ones of which nothing is reported. -/
theorem PreparedFrom.report_eq_nil {selected : List InventoryEntry} {selection : SelectionKind}
    {prepared : Prepared} (h : PreparedFrom (selected.map (decideEntry op selection)) prepared)
    (hop : op.forcedAction = none) : prepared.reportEntries = [] ↔
      ∀ entry ∈ selected, entry.classification = .synchronized := by
  rw [h.report, List.filterMap_eq_nil_iff, List.forall_mem_map]
  refine forall₂_congr fun entry _ => ⟨fun hnone => ?_, fun hsynchronized => ?_⟩
  · cases hd : (decideEntry op selection entry).2 with
    | settled => exact decideEntry_settled hd
    | unresolved found | act action =>
      rw [reportOf, hd] at hnone
      cases hnone
  · rw [reportOf, decideEntry_synchronized hop hsynchronized]

omit [Sha256] in
/-- The first of a list that passes a test is found with its index. -/
theorem zipIdx_find {α : Type} {p : α → Bool} {as bs : List α} {a : α} (hno : ∀ b ∈ as, p b = false)
    (ha : p a = true) : (as ++ a :: bs).zipIdx.find? (fun c => p c.1) = some (a, as.length) := by
  have hnone : as.zipIdx.find? (fun c => p c.1) = none := by
    refine List.find?_eq_none.2 fun c hc => ?_
    simp [hno _ (List.fst_mem_of_mem_zipIdx hc)]
  rw [List.zipIdx_append, List.find?_append, hnone, List.zipIdx_cons, Option.none_or,
    List.find?_cons_of_pos (by simpa using ha), Nat.zero_add]

omit [Sha256] in
/-- The conflicts are the two states that are reported as such. -/
theorem Classification.isConflict_iff {c : Classification} :
    c.IsConflict ↔ c.state = .conflict ∨ c.state = .unadoptedConflict := by
  cases c <;> simp [Classification.IsConflict, Classification.state]

/-- What is refused is the first selected fragment that is no conflict. The status names the
fragments in order, with their states. -/
theorem refusal_eq_some {selectors : List FragmentPath} (hne : selectors ≠ [])
    {selected : List InventoryEntry} {e : Error}
    (h : (statusReport (classifyEntries selected)).refusal selectors = some e) :
    ∃ as entry bs, selected = as ++ entry :: bs ∧ (∀ a ∈ as, a.classification.IsConflict) ∧
      ¬ entry.classification.IsConflict ∧
      e = .invalidForcedState entry.path entry.classification.state := by
  rw [Report.refusal, if_neg hne, statusReport_entries, List.find?_map, Option.bind_map] at h
  obtain ⟨entry, hfind, he⟩ := Option.bind_eq_some_iff.1 h
  obtain ⟨hrefused, as, bs, rfl, hno⟩ := List.find?_eq_some_iff_append.1 hfind
  refine ⟨as, entry, bs, rfl, fun a ha => ?_, ?_, (Option.some.inj he).symm⟩
  · have hforcible : ¬ _ := of_decide_eq_false (by simpa using hno a ha)
    exact Classification.isConflict_iff.2 (not_not.1 hforcible)
  · rw [Classification.isConflict_iff]
    exact of_decide_eq_true hrefused

/-- A forced plan fails with what status foretells. The status names the first fragment that is in
no conflict, and the plan fails at that one. -/
theorem plan_forced (hop : op.forcedAction ≠ none) {selectors : List FragmentPath}
    {selected : List InventoryEntry} {e : Error}
    (h : (statusReport (classifyEntries selected)).refusal selectors = some e) :
    mapError (mapPlanError · (classifyEntries selected))
      (plan op (selectionKind selectors) ((classifyEntries selected).map (·.2))) = .error e := by
  obtain ⟨action, haction⟩ := Option.ne_none_iff_exists'.1 hop
  unfold plan
  rw [haction]
  dsimp only
  rcases eq_or_ne selectors [] with rfl | hne
  · obtain rfl := Option.some.inj h
    rfl
  · obtain ⟨as, entry, bs, rfl, hconflicts, hrefused, rfl⟩ := refusal_eq_some hne h
    have hfind := @zipIdx_find _ (fun c : Classification => ¬ c.IsConflict)
      (as.map InventoryEntry.classification) (bs.map InventoryEntry.classification)
      entry.classification (by simpa using hconflicts) (by simpa using hrefused)
    have hmap : (classifyEntries (as ++ entry :: bs)).map (·.2) =
        as.map InventoryEntry.classification ++
          entry.classification :: bs.map InventoryEntry.classification := by
      rw [classifyEntries, List.map_map, List.map_append]
      rfl
    have hentry : (classifyEntries (as ++ entry :: bs))[as.length]? =
        some (entry, entry.classification) := by
      simp [classifyEntries, InventoryEntry.classification]
    have herror : mapPlanError (.invalidForcedState as.length entry.classification.state)
        (classifyEntries (as ++ entry :: bs)) =
          .invalidForcedState entry.path entry.classification.state := by
      rw [mapPlanError, hentry]
    rw [hmap, hfind, selectionKind_of_ne_nil hne, List.length_map, ← herror]
    rw [require, if_pos (by simp)]
    rfl

/-- A forced command that is prepared acts on fragments that status does not refuse. A conflict is
not synchronized, so there is something to act on. -/
theorem ForcedOnConflicts.refusal {selectors : List FragmentPath} {selected : List InventoryEntry}
    (h : ForcedOnConflicts op (selectionKind selectors) selected) (hop : op.forcedAction ≠ none) :
    (statusReport (classifyEntries selected)).refusal selectors = none ∧
      ∃ entry ∈ selected, entry.classification ≠ .synchronized := by
  obtain ⟨hexplicit, hselected, hconflicts⟩ := h hop
  have hne : selectors ≠ [] := by
    rintro rfl
    cases hexplicit
  refine ⟨?_, ?_⟩
  · cases hrefusal : (statusReport (classifyEntries selected)).refusal selectors with
    | none => rfl
    | some e =>
      obtain ⟨as, entry, bs, rfl, -, hrefused, -⟩ := refusal_eq_some hne hrefusal
      exact absurd (hconflicts entry (by simp)) hrefused
  · obtain ⟨entry, hentry⟩ := List.exists_mem_of_ne_nil _ hselected
    refine ⟨entry, hentry, fun hsynchronized => ?_⟩
    rcases hconflicts entry hentry with hconflict | hconflict <;>
      (rw [show classify _ _ _ = entry.classification from rfl, hsynchronized] at hconflict
       cases hconflict)

/-- What a mutating command on the same disk is prepared with. What it has discovered is what the
disk shows, so it is prepared from the same entries. -/
theorem exists_prepared {inventory : Inventory δ} (hshows : W.Shows (W.view u) inventory)
    (hpaths : resolvePaths request.cwd request.document request.sourceRoot = .ok paths)
    {b : Batch δ} (h : Prepares fs access (request.as (.mutate op)) u b v) :
    b.op = op ∧ W.view v = W.view u ∧
    ForcedOnConflicts op (selectionKind request.selectors)
      (chosen request.selectors inventory.entries) ∧
    PreparedFrom ((chosen request.selectors inventory.entries).map
      (decideEntry op (selectionKind request.selectors))) b.prepared := by
  obtain rfl : b.paths = paths := Except.ok.inj (h.paths.symm.trans hpaths)
  obtain rfl : b.op = op := Mode.mutate.inj h.mode.symm
  obtain ⟨hview, hshows'⟩ := h.shows W
  obtain ⟨-, hselected, -, -⟩ := h.selected_sublist
  obtain ⟨hforced, hprepared, -⟩ := h.preparedFrom
  rw [hselected, (hshows.unique hshows').2] at hforced hprepared
  exact ⟨rfl, hview, hforced, hprepared⟩

/-- A forced command that is refused fails when it has discovered. The plan comes in front of
everything that is prepared. -/
theorem executeWithAccess_refused {inventory : Inventory δ} (hshows : W.Shows (W.view u) inventory)
    (hselectors : ∀ selector ∈ request.selectors,
      selector ∈ inventory.entries.map InventoryEntry.path)
    (hpaths : resolvePaths request.cwd request.document request.sourceRoot = .ok paths)
    (hop : op.forcedAction ≠ none) {e : Error}
    (he : (statusReport (classifyEntries (chosen request.selectors inventory.entries))).refusal
      request.selectors = some e) {found : ResolvedPaths × Inventory δ}
    (hfound : (discoverRequest fs access (request.as (.mutate op)) u).1 = .ok found) :
    (executeWithAccess fs access (request.as (.mutate op)) u).1 = .error (.operation e) := by
  obtain ⟨paths', s₁, hpaths', h₁⟩ := Run.bind_eq_ok.1 (Prod.ext hfound rfl)
  obtain ⟨inventory', s₂, hinventory, -⟩ := Run.bind_eq_ok.1 h₁
  obtain ⟨hresolved, rfl⟩ := operation_eq_ok.1 hpaths'
  obtain rfl := Except.ok.inj (hpaths.symm.trans hresolved)
  have hdiscovered := Run.mapError_eq_ok.1 hinventory
  obtain ⟨ds, hds⟩ := discoverForDocument_discovers hdiscovered
  obtain ⟨-, hshows'⟩ := (discoverForDocument_observes W).eq_ok rfl hdiscovered
  rw [← (hshows.unique hshows').2] at hselectors he
  have hselected : inventory'.select (request.as (.mutate op)).selectors =
      .ok (chosen request.selectors inventory'.entries) :=
    (Inventory.select_eq_ok hds.sorted).2 ⟨hselectors, rfl⟩
  have hprepared : prepareOutputs inventory'.documentBytes
      (classifyEntries (chosen request.selectors inventory'.entries))
      (selectionKind request.selectors) op = .error e :=
    Except.bind_eq_error.2 (.inl (plan_forced hop he))
  unfold executeWithAccess executeUsing
  rw [Run.bind_of_ok hpaths', Run.bind_of_ok hinventory,
    Run.bind_of_ok (operation_of_ok (mapError_eq_ok.2 hselected))]
  dsimp only [Request.as, mutateWithAccess]
  rw [Run.bind_of_error (operation_of_error hprepared)]

/-- Where all that is selected is synchronized, no command writes. One that is forced is refused,
and one that is not has nothing to do. -/
theorem executeWithAccess_synchronized {inventory : Inventory δ}
    (hshows : W.Shows (W.view u) inventory)
    (hpaths : resolvePaths request.cwd request.document request.sourceRoot = .ok paths)
    (hsynchronized : ∀ entry ∈ chosen request.selectors inventory.entries,
      entry.classification = .synchronized) :
    W.view (executeWithAccess fs access (request.as (.mutate op)) u).2 = W.view u := by
  by_cases hprepares : ∃ b w, Prepares fs access (request.as (.mutate op)) u b w
  case neg => exact executeWithAccess_idle W hpaths hprepares
  obtain ⟨b, w, h⟩ := hprepares
  obtain ⟨-, -, hforced, -⟩ := exists_prepared hshows hpaths h
  cases hop : op.forcedAction with
  | some action =>
    obtain ⟨entry, hentry, hne⟩ := (hforced.refusal (by rw [hop]; simp)).2
    exact absurd (hsynchronized entry hentry) hne
  | none =>
    have hquiet : W.Quiet (request.as (.mutate op)) op (W.view u) := by
      intro inventory' hshows' entry hentry action hacts
      rw [(hshows.unique hshows').2] at hentry
      have hdecided := hacts.2
      rw [decideEntry_synchronized hop (hsynchronized entry (mem_chosen.2 ⟨hentry, hacts.1⟩))]
        at hdecided
      cases hdecided
    exact hquiet.run hpaths rfl

/-- Status writes nothing, and its report, together with which unadopted fragments have a file,
determines what any mutating command on the same fragments does that finds the same disk: the lines
of its report, and its exit state; that a forced one is refused, and with which error unless
discovery fails; that nothing is written where it is refused, or where all are synchronized. -/
theorem status_foretells
    (hpaths : resolvePaths request.cwd request.document request.sourceRoot = .ok paths)
    (hmode : request.mode = .status) {report : Report}
    (hstatus : Executes fs access request s (.ok report) t) (hview : W.view u = W.view s)
    {r : Except (PolicyFailure (EngineAccessFailure ε) Error) Report}
    (hrun : Executes fs access (request.as (.mutate op)) u r v) :
    W.view t = W.view s ∧
    (∀ report', r = .ok report' →
      report'.entries = report.entries.filterMap
        (ReportEntry.foretold op (selectionKind request.selectors) (W.view s)) ∧
      (report'.exit = .attention ↔ ∃ e ∈ report'.entries, e.IsState) ∧
      (op.forcedAction = none → (report'.entries = [] ↔ report.exit = .synchronized))) ∧
    (op.forcedAction ≠ none → ∀ e, report.refusal request.selectors = some e →
      W.view v = W.view u ∧
      ∀ found, (discoverRequest fs access (request.as (.mutate op)) u).1 = .ok found →
        r = .error (.operation e)) ∧
    (report.exit = .synchronized → W.view v = W.view u) := by
  obtain ⟨hkept, inventory, hshows, hselectors, rfl⟩ := exists_shown (W := W) hpaths hmode hstatus
  rw [← hview] at hshows
  have hends : (executeWithAccess fs access (request.as (.mutate op)) u).1 = r :=
    congrArg Prod.fst hrun
  have hleaves : (executeWithAccess fs access (request.as (.mutate op)) u).2 = v :=
    congrArg Prod.snd hrun
  refine ⟨hkept, fun report' hr => ?_, fun hop e he => ?_, fun hexit => ?_⟩
  · have hmutates : (request.as (.mutate op)).mode = .mutate op := rfl
    obtain ⟨b, w, h, -⟩ := exists_prepares hmutates (hr ▸ hrun)
    obtain ⟨rfl, -, -, hprepared⟩ := exists_prepared hshows hpaths h
    obtain rfl : b.paths = paths := Except.ok.inj (h.paths.symm.trans hpaths)
    obtain rfl := Except.ok.inj (hr.symm.trans ((h.settles W hrun).1 ⟨_, hr⟩))
    rw [← hview]
    refine ⟨hprepared.foretold fun entry hentry => ?_, hprepared.exit, fun hop => ?_⟩
    · obtain ⟨i, -, -, document, ds, -, -, hlists⟩ := hshows.listed
      exact hlists.found entry (mem_chosen.1 hentry).1
    · exact (hprepared.report_eq_nil hop).trans (statusReport_exit _).symm
  · -- What is prepared under force is not refused, so the command has not got that far.
    have hprepares : ¬ ∃ b w, Prepares fs access (request.as (.mutate op)) u b w := by
      rintro ⟨b, w, h⟩
      obtain ⟨-, -, hforced, -⟩ := exists_prepared hshows hpaths h
      rw [(hforced.refusal hop).1] at he
      cases he
    refine ⟨?_, fun found hfound => ?_⟩
    · rw [← hleaves]
      exact executeWithAccess_idle W hpaths hprepares
    · rw [← hends]
      exact executeWithAccess_refused hshows hselectors hpaths hop he hfound
  · rw [← hleaves]
    exact executeWithAccess_synchronized hshows hpaths ((statusReport_exit _).1 hexit)

end

/-! ## A sample -/

/-- The status of two fragments. -/
def statusPair (t : Tree) : Except (PolicyFailure (EngineAccessFailure Empty) Error) Report × Tree :=
  @executeWithAccess lfDigest _ _ _ _ (treeFilesystem []) AccessPolicy.direct
    ((sampleRequest.on [samplePath, pairPath]).as .status) t

/-- The status of two fragments foretells what their extraction reports. One of them is unadopted
without a file, and the other one too, so both are extracted. -/
theorem status_foretells_sample : ∃ report report' : Report,
    sampleWorkspace.view (statusPair pairTree).2 = sampleWorkspace.view pairTree ∧
    report'.entries = report.entries.filterMap
      (ReportEntry.foretold (.extract false) .explicit (sampleWorkspace.view pairTree)) ∧
    (report'.exit = .attention ↔ ∃ e ∈ report'.entries, e.IsState) := by
  obtain ⟨report, hstatus⟩ := @exists_of_isOk _ _ _ (statusPair pairTree) (by decide +kernel)
  obtain ⟨report', hrun⟩ := @exists_of_isOk _ _ _ (extractPair [samplePath, pairPath] pairTree)
    (by decide +kernel)
  obtain ⟨hview, hreport, -, -⟩ := @status_foretells lfDigest _ _ _ _ _ _ _ sampleWorkspace
    ((sampleRequest.on [samplePath, pairPath]).as .status) (.extract false) _ _ _ _ rfl rfl _ hstatus
    rfl _ hrun
  obtain ⟨hentries, hexit, -⟩ := hreport _ rfl
  exact ⟨report, report', hview, hentries, hexit⟩

end Zwirn.Sync
