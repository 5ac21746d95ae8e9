import Zwirn.Sync.Prepare
import Zwirn.Sync.Writing

/-!
# What a run leaves on a disk

A command that is prepared has seen what the disk shows (`Prepares.shows`), and whatever happens
then, it has filled files of what it extracts and the document with what it has prepared
(`Prepares.settles`).
-/

namespace Zwirn.Sync

open Lib Fragment Adls

/-- An outcome of a command says that the write of the output failed. -/
def EngineCutShort {ε α : Type} (path : FragmentPath)
    (r : Except (PolicyFailure (EngineAccessFailure ε) Error) α) : Prop :=
  ∃ completed destination source, r = .error (.operation (.commit
    ((CommitFailure.writeExternal path destination source).after completed)))

section
variable {σ δ φ ε : Type} {fs : FileSystem σ δ φ} {access : AccessPolicy σ ε}

/-- Every entry that has a file has a regular one. -/
theorem Lists.present {d : Disk φ} {root : SourceRoot δ} {origin : Option DocumentOrigin}
    {seen : List FileIdentity} {ds : List DiscoveredFragment} {entries : List InventoryEntry}
    (h : Lists d root origin seen ds entries) {entry : InventoryEntry} (hentry : entry ∈ entries)
    (hfile : entry.filesystem ≠ none) : ∃ i, d.target entry.path = some ⟨.file, i⟩ := by
  have hfound := h.found entry hentry
  generalize entry.filesystem = found at hfound hfile
  cases hfound with
  | absent hnone => exact absurd rfl hfile
  | present htarget => exact ⟨_, htarget⟩

variable [Sha256] {request : Request} {s u : σ} {b : Batch δ} (W : Workspace fs access b.paths)

/-- What was discovered is what the disk shows, and discovery leaves the disk as it is. -/
theorem Prepares.shows (h : Prepares fs access request s b u) :
    W.view u = W.view s ∧ W.Shows (W.view s) b.inventory :=
  (discoverForDocument_observes W).eq_ok rfl h.discovered

/-- A prepared batch has the inventory of its document's fragments. -/
theorem Prepares.discovers (h : Prepares fs access request s b u) :
    ∃ ds, Discovers b.inventory.documentBytes b.inventory.sourceRoot ds b.inventory :=
  discoverForDocument_discovers h.discovered

/-- The selected entries are among those of the inventory, which are in path order. -/
theorem Prepares.selected_sublist (h : Prepares fs access request s b u) :
    InPathOrder b.inventory.entries ∧ b.selected = chosen request.selectors b.inventory.entries ∧
      b.selected.Sublist b.inventory.entries ∧
      ∀ selector ∈ request.selectors, selector ∈ b.inventory.entries.map InventoryEntry.path := by
  obtain ⟨ds, hds⟩ := h.discovers
  obtain ⟨hselectors, hselected⟩ := (Inventory.select_eq_ok hds.sorted).1 h.selected
  exact ⟨hds.sorted, hselected, hselected ▸ chosen_sublist _ _, hselectors⟩

/-- What was collected. -/
theorem Prepares.preparedFrom (h : Prepares fs access request s b u) :
    ForcedOnConflicts b.op (selectionKind request.selectors) b.selected ∧
      PreparedFrom (b.selected.map (decideEntry b.op (selectionKind request.selectors)))
        b.prepared ∧
      materializeDocument b.inventory.documentBytes b.prepared.nodeUpdates = .ok b.output := by
  obtain ⟨hforced, hprepare, hmaterialize⟩ := prepareOutputs_eq_ok.1 h.prepared
  exact ⟨hforced, prepare_eq_ok hprepare, hmaterialize⟩

/-- The extracted entries are the selected ones whose decision is to extract. -/
theorem Prepares.mem_extracted (h : Prepares fs access request s b u) {entry : InventoryEntry} :
    entry ∈ b.prepared.extracted ↔ entry ∈ b.selected ∧
      (decideEntry b.op (selectionKind request.selectors) entry).2 = .act .extract :=
  h.preparedFrom.2.1.mem_extracted

/-- What a run from a batch leaves of the disk `d`. The files of `ws` are filled in order with as
much of their texts as was written, and then the document. -/
structure Settles {α : Type} (b : Batch δ) (d : Disk φ)
    (r : Except (PolicyFailure (EngineAccessFailure ε) Error) α) (d' : Disk φ) (i : FileIdentity)
    (ws : List (InventoryEntry × Bytes)) (d₁ : Disk φ) : Prop where
  document : d.document = some i
  writings : Writings d ws d₁
  written : ∀ w ∈ ws, w.1 ∈ b.prepared.extracted ∧ ∃ n, w.2 = (externalOutput w.1).bytes.take n ∧
    (w.2 = (externalOutput w.1).bytes ∨ EngineCutShort w.1.path r)
  filled : DocumentFilled d₁ d' i b.output (∃ a, r = .ok a)
  done : (∃ a, r = .ok a) →
    ws = b.prepared.extracted.map fun entry => (entry, (externalOutput entry).bytes)

/-- However a prepared command ends, it has filled files of what it extracts, and the document. A
run that fails on the way has filled the files up to the failure, the last of them in part. -/
theorem Prepares.settles (h : Prepares fs access request s b u) {t : σ}
    {r : Except (PolicyFailure (EngineAccessFailure ε) Error) Report}
    (hrun : executeWithAccess fs access request s = (r, t)) :
    ((∃ report, r = .ok report) → r = .ok b.report) ∧
      ∃ i ws d, Settles b (W.view s) r (W.view t) i ws d := by
  obtain ⟨hview, hshows⟩ := h.shows W
  obtain ⟨i, hi, -, document, ds, -, -, hlists⟩ := hshows.listed
  obtain ⟨-, -, hsublist, -⟩ := h.selected_sublist
  have hpresent : ∀ entry ∈ b.prepared.extracted, entry.filesystem ≠ none →
      ∃ i, (W.view u).target entry.path = some ⟨.file, i⟩ := by
    intro entry hentry hfile
    rw [hview]
    exact hlists.present (hsublist.subset (h.mem_extracted.1 hentry).1) hfile
  rw [executeWithAccess, h.executeUsing_eq] at hrun
  split at hrun
  · next hnothing =>
    cases hrun
    rw [List.isEmpty_iff, Option.isNone_iff_eq_none] at hnothing
    rw [hview]
    exact ⟨fun _ => rfl, i, [], W.view s, hi, .nil (.refl _), by simp,
      ⟨.refl _, .inl ⟨rfl, fun _ => hnothing.2⟩⟩, fun _ => by rw [hnothing.1]; rfl⟩
  · cases hcommit : commitUsing access (realFilesystem fs b.inventory.sourceRoot) b.external
      (absentTargets b.inventory.entries) b.document u with
    | mk r' t' =>
    obtain ⟨ws, d, hwritings, hfilled, hws, hdone⟩ := commitUsing_spec W hshows.isRoot hcommit
      hpresent (by rw [hview]; exact hi)
    rw [hview] at hwritings
    have hbatch : b.commit (realFilesystem fs) access u = (mapError (fun failure =>
        (failure.mapAccess EngineAccessFailure.commit).mapOperation Error.commit) r', t') := by
      rw [Batch.commit, Run.mapError_apply, hcommit]
    cases r' with
    | ok _ =>
      rw [Run.bind_of_ok hbatch] at hrun
      cases hrun
      refine ⟨fun _ => rfl, i, ws, d, hi, hwritings, fun w hw => ?_, ?_, fun _ => hdone rfl⟩
      · obtain ⟨hmem, n, hn, hfull | ⟨_, _, _, he⟩⟩ := hws w hw
        · exact ⟨hmem, n, hn, .inl hfull⟩
        · cases he
      · obtain ⟨hextends, hcases⟩ := hfilled
        refine ⟨hextends, hcases.imp (fun hsame => ⟨hsame.1, fun _ => hsame.2 rfl⟩) fun hwrites => ?_⟩
        obtain ⟨bytes, hbytes, n, hsets, hfull⟩ := hwrites
        exact ⟨bytes, hbytes, n, hsets, fun _ => hfull rfl⟩
    | error e =>
      rw [Run.bind_of_error hbatch] at hrun
      cases hrun
      have herror : ¬ ∃ report : Report, mapError (fun failure : PolicyFailure _ _ =>
          (failure.mapAccess EngineAccessFailure.commit).mapOperation Error.commit) (.error e) =
            .ok report := fun hr => by cases hr.choose_spec
      refine ⟨fun hr => absurd hr herror, i, ws, d, hi, hwritings, fun w hw => ?_, ?_,
        fun hr => absurd hr herror⟩
      · obtain ⟨hmem, n, hn, hfull⟩ := hws w hw
        refine ⟨hmem, n, hn, hfull.imp_right fun hcut => ?_⟩
        obtain ⟨completed, destination, source, he⟩ := hcut
        cases he
        exact ⟨completed, destination, source, rfl⟩
      · obtain ⟨hextends, hcases⟩ := hfilled
        refine ⟨hextends, hcases.imp (fun hsame => ⟨hsame.1, fun hr => absurd hr herror⟩)
          fun hwrites => ?_⟩
        obtain ⟨bytes, hbytes, n, hsets, -⟩ := hwrites
        exact ⟨bytes, hbytes, n, hsets, fun hr => absurd hr herror⟩

/-- A command that does not get to a commit leaves the disk as it is. It does nothing but discover,
and discovery only observes. -/
theorem executeWithAccess_idle {paths : ResolvedPaths} (W : Workspace fs access paths)
    (hpaths : resolvePaths request.cwd request.document request.sourceRoot = .ok paths)
    (h : ¬ ∃ b u, Prepares fs access request s b u) :
    W.view (executeWithAccess fs access request s).2 = W.view s := by
  rw [executeWithAccess, (executeUsing_discovers (realFilesystem fs) h).1, discoverRequest,
    Run.bind_of_ok (operation_of_ok hpaths)]
  have hobserves : ((Inventory.discoverForDocument fs paths.sourceRoot paths.document
      access).mapError fun failure => (failure.mapAccess
        (@EngineAccessFailure.discovery ε)).mapOperation Error.inventory).Observes W.view
        (W.view s) (fun _ => True)
          (fun _ => True) :=
    ((discoverForDocument_observes W).mono (fun _ _ => trivial) fun _ _ => trivial).mapError
      fun _ h => h
  exact (hobserves.bind fun inventory _ => .pure trivial : Run.Observes W.view (W.view s)
    (fun _ => True) (fun _ => True) _) s rfl |>.1

end

end Zwirn.Sync
