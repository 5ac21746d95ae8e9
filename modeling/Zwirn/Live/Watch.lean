import Zwirn.Live.Diagnostics
import Zwirn.Live.Progress
import Zwirn.Sync.Runs

/-!
# The session over the files

The session runs the engine on files that others change at any time. Each change in the watched
scopes raises events, which the monitor delivers later, many at a time or one by one; a run of the
engine raises them too. A run that somebody else disturbs may do anything. Every run keeps
`Watch.Inv`. From it follows that the lines of a session at rest tell how the files stand
(`Watch.Starts.rest_tells`). A session that is left alone comes to rest
(`Watch.Starts.comes_to_rest`).
-/

namespace Zwirn.Live

open Lib Fragment Sync

/-- The session over a filesystem. In the source there are the session and its diagnostics; the
other fields are of the system around them. -/
structure Watch (σ ω : Type) where
  session : Session
  disk : σ
  reporter : Diagnostics ω
  /-- Somebody else has changed files since the reconciliation began. -/
  disturbed : Bool
  /-- What the engine has returned in the reconciliation that goes on. -/
  result : Option (Except Sync.Error Report)
  /-- The events that are not delivered yet. -/
  events : Nat

/-- The observable part of a step. Those of the session are its own labels. -/
inductive Activity
  /-- Somebody else changes files, or touches something in the watched scopes. -/
  | edit
  /-- The system does what no file shows. -/
  | other
  | session (l : Label)
  /-- The engine returns a report or an error, and its own changes raise events. -/
  | run (returned : Bool) (raised : Nat)
deriving DecidableEq

/-- The request of every reconciliation: `sync` for all fragments. -/
def liveRequest (cwd document : Path) (sourceRoot : Option Path) : Request :=
  ⟨cwd, document, sourceRoot, [], .mutate .sync⟩

/-! ## Reconciliations that are due -/

/-- A reconciliation is going to begin, unless shutdown is requested. -/
def Session.Due (s : Session) : Prop := s.driver = .starting ∨ s.Woken

/-- A session that is due for a reconciliation stays so until it begins one. Shutdown is the one
exception, and a failed write of the diagnostics the other one. -/
theorem Session.Due.step {s t : Session} {l : Label} (h : s.Due) (hl : Step s l t)
    (hsound : s.Sound) (hs : t.shutdown = false) (hbegin : l ≠ .beginReconciliation)
    (hwritten : l ≠ .endReconciliation false) : t.Due := by
  rcases h with hd | hwoken
  · cases hl with
    | hint | swapAgain | sendControl => exact .inl hd
    | swapFirst => cases hs
    | loadStarting =>
      change s.shutdown = false at hs
      exact .inr (.inr (.inl (by simp [Session.setDriver, hs, Next.driver])))
    | loadAfter hd' | loadWaiting hd' | loadDeciding _ hd' | tryRecv hd' | recv _ hd'
    | endReconciliation _ hd' | beginReconciliation hd' | stop hd' => cases hd.symm.trans hd'
  · exact .inr (hl.toBegin hsound hs hwoken hbegin hwritten).1

/-- A hint makes the session due. -/
theorem Session.due_of_hint {s : Session} (hsound : s.Sound) (hs : s.shutdown = false) :
    (s.trySend .filesystem).Due := by
  refine .inr (.inl ?_)
  cases hc : s.channel with
  | none => simp [Session.trySend, hc]
  | some wake =>
    cases wake with
    | filesystem => simp [Session.trySend, hc]
    | control => cases (hsound.channel hc).symm.trans hs

/-- A driver reconciles from the beginning to the end of a reconciliation. No other step of the
session enters or leaves the reconciliation. -/
theorem Step.reconciling_iff {s t : Session} {l : Label} (hl : Step s l t)
    (hbegin : l ≠ .beginReconciliation) (hend : ∀ written, l ≠ .endReconciliation written) :
    t.driver = .reconciling ↔ s.driver = .reconciling := by
  cases hl with
  | hint | swapFirst | swapAgain | sendControl => exact Iff.rfl
  | beginReconciliation => exact absurd rfl hbegin
  | endReconciliation written => exact absurd rfl (hend written)
  | loadStarting hd =>
    rw [hd]
    cases s.shutdown <;> simp [Session.setDriver, Next.driver]
  | loadAfter hd | loadWaiting hd =>
    rw [hd]
    cases s.shutdown <;> simp [Session.setDriver]
  | loadDeciding wake hd =>
    rw [hd]
    cases boundaryNext s.shutdown wake <;> simp [Session.setDriver, Next.driver]
  | tryRecv hd | recv _ hd =>
    rw [hd]
    simp [Session.takeWake]
  | stop hd =>
    rw [hd]
    simp [Session.setDriver]

/-- A driver that has returned does nothing more. -/
theorem Step.returned_of_returned {s t : Session} {l : Label} (hl : Step s l t)
    (hd : s.driver = .returned) : t.driver = .returned := by
  cases hl with
  | hint | swapFirst | swapAgain | sendControl => exact hd
  | loadStarting hd' | loadAfter hd' | loadWaiting hd' | loadDeciding _ hd' | tryRecv hd'
  | recv _ hd' | endReconciliation _ hd' | beginReconciliation hd' | stop hd' =>
    cases hd.symm.trans hd'

section
variable [Sha256] [Texts] {σ δ φ ω : Type} {fs : FileSystem σ δ φ}
  {coordinated : AccessPolicy σ CoordinatedAccessFailure} {paths : ResolvedPaths}

/-- The steps of the session over the files. The session takes its own steps, and changes of files,
deliveries of events and runs of the engine come between them. -/
inductive WatchStep (W : Workspace fs coordinated paths) (request : Request)
    (w : LineWriter ω IoError) : Watch σ ω → Activity → Watch σ ω → Prop
  /-- A change that files show raises an event at least. -/
  | edit (s : Watch σ ω) (disk : σ) (raised : Nat) : raised ≠ 0 → WatchStep W request w s .edit
      { s with disk := disk, disturbed := true, events := s.events + raised }
  | other (s : Watch σ ω) (disk : σ) : W.view disk = W.view s.disk →
      WatchStep W request w s .other { s with disk := disk }
  /-- The monitor delivers some of the events in one hint. -/
  | hint (s : Watch σ ω) (left : Nat) : left < s.events → WatchStep W request w s (.session .hint)
      { s with session := s.session.trySend .filesystem, events := left }
  | schedule (s : Watch σ ω) (l : Label) (t : Session) : Step s.session l t → l ≠ .hint →
      l ≠ .beginReconciliation → (∀ written, l ≠ .endReconciliation written) → l ≠ .stop →
      WatchStep W request w s (.session l) { s with session := t }
  | beginReconciliation (s : Watch σ ω) (t : Session) : Step s.session .beginReconciliation t →
      WatchStep W request w s (.session .beginReconciliation)
        { s with session := t, disturbed := false }
  /-- The engine runs undisturbed. If it returns and the files are as they were, it has written
  none. -/
  | run (s : Watch σ ω) (r : Except Sync.Error Report) (disk : σ) (raised : Nat) :
      s.session.driver = .reconciling → s.result = none → s.disturbed = false →
      execute fs coordinated request s.disk = (r, disk) →
      (W.view disk ≠ W.view s.disk → raised ≠ 0) →
      (r.isOk → W.view disk = W.view s.disk → raised = 0) →
      WatchStep W request w s (.run r.isOk raised)
        { s with disk := disk, result := some r, events := s.events + raised }
  /-- What a run makes of files that somebody else changes meanwhile is left open. -/
  | runDisturbed (s : Watch σ ω) (r : Except Sync.Error Report) (disk : σ) (raised : Nat) :
      s.session.driver = .reconciling → s.result = none → s.disturbed = true →
      WatchStep W request w s (.run r.isOk raised)
        { s with disk := disk, result := some r, events := s.events + raised }
  | endReconciliation (s : Watch σ ω) (r : Except Sync.Error Report)
      (reported : Except Error Unit) (reporter : Diagnostics ω) (t : Session) :
      s.result = some r → Diagnostics.reconciliation w r s.reporter = (reported, reporter) →
      Step s.session (.endReconciliation reported.isOk) t →
      WatchStep W request w s (.session (.endReconciliation reported.isOk))
        { s with session := t, reporter := reporter, result := none }
  | stop (s : Watch σ ω) (reported : Except Error Unit) (reporter : Diagnostics ω) (t : Session) :
      Diagnostics.stopped w s.reporter = (reported, reporter) → Step s.session .stop t →
      WatchStep W request w s (.session .stop) { s with session := t, reporter := reporter }

/-- The session has started, and nothing else has happened yet. -/
structure Watch.Starts (s : Watch σ ω) : Prop where
  session : s.session = .start
  result : s.result = none
  blocker : s.reporter.blocker = none

/-- The step of the session that is part of a step. -/
def Activity.label? : Activity → Option Label
  | .session l => some l
  | _ => none

variable {W : Workspace fs coordinated paths} {request : Request} {w : LineWriter ω IoError}
  {s t : Watch σ ω} {a : Activity} {as : List Activity}

/-- The session steps as it does without files. -/
theorem WatchStep.session (h : WatchStep W request w s a t) :
    Trace Step s.session a.label?.toList t.session := by
  cases h with
  | hint => exact .single (.hint _)
  | schedule _ _ hl => exact .single hl
  | beginReconciliation _ hl => exact .single hl
  | endReconciliation _ _ _ _ _ _ hl => exact .single hl
  | stop _ _ _ _ hl => exact .single hl
  | edit | other | run | runDisturbed => exact .nil _

/-- A run over the files is a run of the session. -/
theorem session_of_trace (h : Trace (WatchStep W request w) s as t) :
    Trace Step s.session (as.filterMap Activity.label?) t.session := by
  induction h with
  | nil => exact .nil _
  | @cons s t u a as hstep _ ih =>
    have hsplit : (a :: as).filterMap Activity.label? =
        a.label?.toList ++ as.filterMap Activity.label? := by
      cases a <;> rfl
    rw [hsplit]
    exact hstep.session.append ih

/-! ## What every run keeps -/

/-- The run of the request leaves the files, which are as they were. -/
def Watch.Leaves (W : Workspace fs coordinated paths) (request : Request) (s : Watch σ ω)
    (r : Except Sync.Error Report) : Prop :=
  ∃ u v, execute fs coordinated request u = (r, v) ∧ W.view u = W.view s.disk ∧
    W.view v = W.view s.disk

/-- What the files show is what the last reconciliation has left, or the one that goes on is going
to see. -/
inductive Watch.Known (W : Workspace fs coordinated paths) (request : Request) (s : Watch σ ω) : Prop
  | begun : s.session.driver = .reconciling → s.result = none → s.disturbed = false →
      Known W request s
  | returned {r : Except Sync.Error Report} : s.session.driver = .reconciling →
      s.result = some r → s.Leaves W request r → Known W request s
  | reported {r : Except Sync.Error Report} : s.session.driver ≠ .reconciling →
      s.Leaves W request r → s.reporter.blocker = blockerOf r → Known W request s

/-- What every run keeps. The field `pending` says when a session may rest: only if no event is
left, no reconciliation is due and the last run was about the files as they are. -/
structure Watch.Inv (W : Workspace fs coordinated paths) (request : Request)
    (w : LineWriter ω IoError) (lines : List Str) (s : Watch σ ω) : Prop where
  sound : s.session.Sound
  result : s.session.driver ≠ .reconciling → s.result = none
  printed : s.session.driver ≠ .returned → ∃ ms : List Message,
    w.lines s.reporter.writer = lines ++ ms.map Message.text ∧
      Stands ms s.reporter.blocker
  pending : s.session.shutdown = false → s.session.driver ≠ .returned →
    s.events ≠ 0 ∨ s.session.Due ∨ s.Known W request

omit [Texts] in
/-- What the last run left depends only on what the files show. -/
theorem Watch.Leaves.congr {r : Except Sync.Error Report} (h : s.Leaves W request r)
    (hview : W.view t.disk = W.view s.disk) : t.Leaves W request r := by
  obtain ⟨u, v, hrun, hu, hv⟩ := h
  exact ⟨u, v, hrun, hu.trans hview.symm, hv.trans hview.symm⟩

/-- So what is known of the files stays known while nothing of it changes. -/
theorem Watch.Known.congr (h : s.Known W request) (hview : W.view t.disk = W.view s.disk)
    (hdriver : t.session.driver = .reconciling ↔ s.session.driver = .reconciling)
    (hresult : t.result = s.result) (hdisturbed : t.disturbed = s.disturbed)
    (hreporter : t.reporter = s.reporter) : t.Known W request := by
  cases h with
  | begun hd hr hundisturbed =>
    exact .begun (hdriver.2 hd) (hresult.trans hr) (hdisturbed.trans hundisturbed)
  | returned hd hr hleaves => exact .returned (hdriver.2 hd) (hresult.trans hr) (hleaves.congr hview)
  | reported hd hleaves hblocker =>
    exact .reported (mt hdriver.1 hd) (hleaves.congr hview) (hreporter ▸ hblocker)

/-- What is printed is kept, up to a reconciliation that could not print all it had to. Only the
end of a reconciliation prints, and `Stands` says which of the printed lines are those of the
blocker. -/
theorem WatchStep.printed {lines : List Str} (hl : WatchStep W request w s a t)
    (h : s.Inv W request w lines) (hd : t.session.driver ≠ .returned) : ∃ ms : List Message,
      w.lines t.reporter.writer = lines ++ ms.map Message.text ∧
        Stands ms t.reporter.blocker := by
  cases hl with
  | edit | other | run | runDisturbed | hint => exact h.printed hd
  | schedule _ _ hl => exact h.printed (mt hl.returned_of_returned hd)
  | beginReconciliation _ hl => exact h.printed (mt hl.returned_of_returned hd)
  | endReconciliation r reported reporter _ hr hreported hl =>
    obtain ⟨ms, hlines, hstands⟩ := h.printed (mt hl.returned_of_returned hd)
    cases reported with
    | error e =>
      cases hl
      exact absurd rfl hd
    | ok u =>
      obtain ⟨hprinted, hblocker⟩ := Diagnostics.reconciliation_eq_ok _ hreported
      refine ⟨ms ++ messages s.reporter.blocker r, ?_, ?_⟩
      · rw [hprinted, hlines, List.map_append, List.append_assoc]
      · rw [hblocker]
        exact hstands.reconciliation
  | stop _ _ _ _ hl =>
    cases hl
    exact absurd rfl hd

/-- As long as what the files show is not known, a reconciliation is due. An edit leaves an event to
be delivered, an event becomes a hint, a hint makes the session due, and what a due session then
begins is known to see the files as they are. -/
theorem WatchStep.pending {lines : List Str} (hl : WatchStep W request w s a t)
    (h : s.Inv W request w lines) (hs : t.session.shutdown = false)
    (hd : t.session.driver ≠ .returned) :
    t.events ≠ 0 ∨ t.session.Due ∨ t.Known W request := by
  cases hl with
  | edit disk raised hraised => exact .inl (by simp; omega)
  | other disk hview =>
    exact (h.pending hs hd).imp_right (.imp_right fun hknown =>
      hknown.congr hview Iff.rfl rfl rfl rfl)
  | hint left hleft => exact .inr (.inl (Session.due_of_hint h.sound hs))
  | schedule l u hl hhint hbegin hend hstop =>
    have hclear : s.session.shutdown = false := Bool.eq_false_iff.2 fun hset => by
      simp [hl.shutdown hset] at hs
    refine (h.pending hclear (mt hl.returned_of_returned hd)).imp_right (.imp (fun hdue => ?_)
      fun hknown => ?_)
    · exact hdue.step hl h.sound hs hbegin (hend false)
    · exact hknown.congr rfl (hl.reconciling_iff hbegin hend) rfl rfl rfl
  | beginReconciliation u hl =>
    cases hl with
    | beginReconciliation hto =>
      exact .inr (.inr (.begun rfl (h.result (by rw [hto]; simp)) rfl))
  | run r disk raised hdriver hnone hundisturbed hrun hraised _ =>
    by_cases hview : W.view disk = W.view s.disk
    · exact .inr (.inr (.returned hdriver rfl ⟨s.disk, disk, hrun, hview.symm, rfl⟩))
    · have hsome := hraised hview
      exact .inl (by simp; omega)
  | runDisturbed r disk raised hdriver hnone hdisturbed =>
    rcases h.pending hs hd with hevents | hdue | hknown
    · exact .inl (by simp; omega)
    · exact .inr (.inl hdue)
    · cases hknown with
      | begun _ _ hundisturbed => cases hdisturbed.symm.trans hundisturbed
      | returned _ hsome _ => cases hnone.symm.trans hsome
      | reported hne => exact absurd hdriver hne
  | endReconciliation r reported reporter u hsome hreported hl =>
    cases reported with
    | error e =>
      cases hl
      exact absurd rfl hd
    | ok v =>
      have hclear : s.session.shutdown = false := Bool.eq_false_iff.2 fun hset => by
        simp [hl.shutdown hset] at hs
      have hreconciling : s.session.driver = .reconciling := by cases hl; assumption
      refine (h.pending hclear (by rw [hreconciling]; simp)).imp_right (.imp (fun hdue => ?_)
        fun hknown => ?_)
      · exact hdue.step hl h.sound hs (by simp) (by simp [Except.isOk, Except.toBool])
      · cases hknown with
        | begun _ hnone _ => cases hnone.symm.trans hsome
        | reported hne => exact absurd hreconciling hne
        | returned _ hsome' hleaves =>
          obtain rfl := Option.some.inj (hsome.symm.trans hsome')
          refine .reported ?_ hleaves (Diagnostics.reconciliation_eq_ok _ hreported).2
          cases hl
          simp [Session.setDriver, Except.isOk, Except.toBool]
  | stop reported reporter u _ hl =>
    cases hl
    exact absurd rfl hd

/-- Every step over the files keeps the invariant. A disturbance is pending until it is seen. Each
field was shown of a step by itself. -/
theorem Watch.Inv.step {lines : List Str} (h : s.Inv W request w lines)
    (hl : WatchStep W request w s a t) : t.Inv W request w lines := by
  refine ⟨h.sound.run hl.session, fun hd => ?_, hl.printed h, hl.pending h⟩
  cases hl with
  | edit | other | hint => exact h.result hd
  | schedule _ _ hl _ hbegin hend => exact h.result (mt (hl.reconciling_iff hbegin hend).2 hd)
  | beginReconciliation _ hl =>
    cases hl
    exact absurd rfl hd
  | run _ _ _ hdriver | runDisturbed _ _ _ hdriver => exact absurd hdriver hd
  | endReconciliation => rfl
  | stop _ _ _ _ hl =>
    cases hl with
    | stop hstop => exact h.result (by rw [hstop]; simp)

/-- It holds at the start, where the initial run is still to come. -/
theorem Watch.Starts.inv (h : s.Starts) :
    s.Inv W request w (w.lines s.reporter.writer) := by
  refine ⟨?_, fun _ => h.result, fun _ => ⟨[], by simp, ?_⟩, fun _ _ => ?_⟩
  · rw [h.session]
    exact .start
  · rw [h.blocker]
    exact .nil
  · rw [h.session]
    exact .inr (.inl (.inl rfl))

/-- A run of the session over the files. -/
theorem Watch.Starts.run {as : List Activity} (h : s.Starts)
    (hrun : Trace (WatchStep W request w) s as t) :
    t.Inv W request w (w.lines s.reporter.writer) :=
  (hrun.forall_of_closed (Q := fun _ => True) h.inv fun _ _ _ hs hl => ⟨hs.step hl, trivial⟩).1

/-! ## The session at rest -/

/-- The driver is blocked, and nothing is going to wake it. -/
structure Watch.Rests (s : Watch σ ω) : Prop where
  driver : s.session.driver = .receiving
  channel : s.session.channel = none
  shutdown : s.session.shutdown = false
  events : s.events = 0

/-- At rest the last reconciliation has left the files, which are as they were. -/
theorem Watch.Inv.rests {lines : List Str} (h : s.Inv W request w lines) (hrest : s.Rests) :
    ∃ r, s.Leaves W request r ∧ s.reporter.blocker = blockerOf r := by
  obtain ⟨hd, hc, hs, hevents⟩ := hrest
  rcases h.pending hs (by rw [hd]; simp) with hsome | hdue | hknown
  · exact absurd hevents hsome
  · simp [Session.Due, Session.Woken, Driver.Committed, hd, hc] at hdue
  · cases hknown with
    | begun hreconciling | returned hreconciling => cases hd.symm.trans hreconciling
    | reported _ hleaves hblocker => exact ⟨_, hleaves, hblocker⟩

omit [Texts] in
/-- A run that returned and left the files had nothing to act on. -/
theorem Watch.Leaves.ok {report : Report} (h : s.Leaves W request (.ok report))
    (hpaths : resolvePaths request.cwd request.document request.sourceRoot = .ok paths)
    {op : Operation} (hmode : request.mode = .mutate op) (hop : op.forcedAction = none)
    (hall : request.selectors = []) (hseparate : W.Separate (W.targets (W.view s.disk))) :
    ∃ inventory, W.Shows (W.view s.disk) inventory ∧ W.Quiet request op (W.view s.disk) ∧
      report.entries = unsettled inventory.entries := by
  obtain ⟨u, v, hrun, hu, hv⟩ := h
  obtain ⟨b, hran, rfl⟩ := exists_ran hpaths hmode (hu.symm ▸ hseparate) (Run.mapError_eq_ok.1 hrun)
  have hquiet := hran.quiet_of_unchanged hop (hv.trans hu.symm)
  refine ⟨b.inventory, hu ▸ hran.shows_, hu ▸ hquiet, ?_⟩
  rw [hran.report_unsettled hop hquiet, hran.selected, hall, chosen, if_pos rfl]

/-- The last status lines of a session at rest tell how the files stand. Either they are those of
the fragments that are not synchronized, one line for each with its state, and no safe action is
left; or they say why the last run failed, on files that are still the same. The targets are taken
to be separate. -/
theorem Watch.Starts.rest_tells {as : List Activity} (h : s.Starts)
    (hrun : Trace (WatchStep W request w) s as t) (hrest : t.Rests)
    {cwd document : Path} {sourceRoot : Option Path}
    (hrequest : request = liveRequest cwd document sourceRoot)
    (hpaths : resolvePaths cwd document sourceRoot = .ok paths)
    (hseparate : W.Separate (W.targets (W.view t.disk))) :
    ∃ ms : List Message,
      w.lines t.reporter.writer = w.lines s.reporter.writer ++ ms.map Message.text ∧
      ((∃ inventory, W.Shows (W.view t.disk) inventory ∧ W.Quiet request .sync (W.view t.disk) ∧
        ∃ exit, Tells ms (.ok ⟨unsettled inventory.entries, exit⟩)) ∨
      ∃ error, t.Leaves W request (.error error) ∧ Tells ms (.error error)) := by
  subst hrequest
  have hinv := h.run hrun
  obtain ⟨r, hleaves, hblocker⟩ := hinv.rests hrest
  obtain ⟨ms, hlines, hstands⟩ := hinv.printed (by rw [hrest.driver]; simp)
  rw [hblocker] at hstands
  refine ⟨ms, hlines, ?_⟩
  cases r with
  | ok report =>
    obtain ⟨inventory, hshows, hquiet, hreport⟩ := hleaves.ok hpaths rfl rfl rfl hseparate
    refine .inl ⟨inventory, hshows, hquiet, report.exit, ?_⟩
    rw [← hreport]
    exact hstands.tells
  | error error => exact .inr ⟨error, hleaves, hstands.tells⟩

/-! ## The session left alone -/

/-- The step is one of the program or of the delivery of events. -/
def Activity.isOwn : Activity → Bool
  | .edit | .other | .session (.swap _) => false
  | _ => true

/-- The events that a run of the engine raises. -/
def Activity.raised : Activity → Nat
  | .run _ raised => raised
  | _ => 0

/-- What pays the steps of the session over the files. -/
def Watch.toRest (s : Watch σ ω) : Nat :=
  20 * s.events + 2 * s.session.toIdle + (if s.result = none then 1 else 0) + 19 * s.session.toSend

omit [Sha256] [Texts] in
/-- What has been paid for at any time is bounded by the events that were not delivered yet. A full
channel, the run that goes on and a wake to send make up the constant. -/
theorem Watch.toRest_le (s : Watch σ ω) : s.toRest ≤ 20 * s.events + 54 := by
  have hdriver : s.session.driver.toIdle ≤ 8 := by
    unfold Driver.toIdle
    split <;> omega
  have hidle : s.session.toIdle ≤ 17 := by
    unfold Session.toIdle
    split <;> omega
  have hsend : s.session.toSend ≤ 1 := by
    unfold Session.toSend
    split <;> omega
  unfold Watch.toRest
  split <;> omega

/-- The steps of the session over the files are paid by the events. An event pays for the wake that
it becomes, and the wake for the steps that the driver takes for it. -/
theorem WatchStep.toRest (hl : WatchStep W request w s a t) (hsound : s.session.Sound)
    (hedit : a ≠ .edit) :
    t.toRest + (if a.isOwn then 1 else 0) ≤ s.toRest + 20 * a.raised := by
  cases hl with
  | edit => exact absurd rfl hedit
  | other => exact Nat.le_refl _
  | hint left hleft =>
    have hidle := s.session.trySend_toIdle .filesystem
    have hsend : (s.session.trySend .filesystem).toSend = s.session.toSend := rfl
    simp only [Watch.toRest, Activity.isOwn, Activity.raised, hsend]
    simp
    omega
  | schedule l u hl hhint hbegin hend hstop =>
    have hidle := hl.toIdle
    have hsend := hl.toSend hsound
    cases l with
    | hint => exact absurd rfl hhint
    | _ =>
      simp [Label.cost, Label.gain, Label.isDriver] at hidle hsend
      simp [Watch.toRest, Activity.isOwn, Activity.raised]
      omega
  | beginReconciliation u hl | stop _ _ u _ hl =>
    have hidle := hl.toIdle
    have hsend := hl.toSend hsound
    simp [Label.cost, Label.gain, Label.isDriver] at hidle hsend
    simp [Watch.toRest, Activity.isOwn, Activity.raised]
    omega
  | run r disk raised _ hnone | runDisturbed r disk raised _ hnone =>
    simp [Watch.toRest, Activity.isOwn, Activity.raised, hnone]
    omega
  | endReconciliation r reported reporter u hsome _ hl =>
    have hidle := hl.toIdle
    have hsend := hl.toSend hsound
    simp [Label.cost, Label.gain, Label.isDriver] at hidle hsend
    simp [Watch.toRest, Activity.isOwn, Activity.raised, hsome]
    omega

/-- Nobody else changes files, and the engine returns. -/
def Activity.Calm (a : Activity) : Prop := a ≠ .edit ∧ ∀ raised, a ≠ .run false raised

/-- Changes of the engine raise events. -/
def Activity.changes (a : Activity) : Bool := a.raised ≠ 0

/-- There is nothing to embed. -/
def EmbedsNone (W : Workspace fs coordinated paths) (request : Request) (d : Disk φ) : Prop :=
  ∀ inventory, W.Shows d inventory → ∀ entry ∈ inventory.entries, ¬ request.Acts .sync entry .embed

open Classical in
/-- The runs that can still change files. -/
noncomputable def toSettle (W : Workspace fs coordinated paths) (request : Request) (d : Disk φ) :
    Nat :=
  if W.Quiet request .sync d then 0 else if EmbedsNone W request d then 1 else 2

omit [Texts] in
/-- At most two runs can still change files. -/
theorem toSettle_le (d : Disk φ) : toSettle W request d ≤ 2 := by
  unfold toSettle
  split
  · omega
  · split <;> omega

omit [Texts] in
/-- A run that returns changes nothing, or leaves fewer runs that can. Behind a run that embeds
nothing a second one has nothing to do, and a run that embeds leaves nothing to be embedded. -/
theorem toSettle_of_run {u v : σ} {report : Report}
    (hrun : execute fs coordinated request u = (.ok report, v))
    (hpaths : resolvePaths request.cwd request.document request.sourceRoot = .ok paths)
    (hmode : request.mode = .mutate .sync) (hseparate : W.Separate (W.targets (W.view u))) :
    W.Separate (W.targets (W.view v)) ∧
      (W.view v = W.view u ∨ toSettle W request (W.view v) + 1 ≤ toSettle W request (W.view u)) := by
  obtain ⟨b, hran, -⟩ := exists_ran hpaths hmode hseparate (Run.mapError_eq_ok.1 hrun)
  refine ⟨hseparate.mono hran.targets_subset, ?_⟩
  by_cases hquiet : W.Quiet request .sync (W.view u)
  · have hview := hquiet.run hpaths hmode
    rw [Run.mapError_eq_ok.1 hrun] at hview
    exact .inl hview
  · refine .inr ?_
    by_cases hnone : EmbedsNone W request (W.view u)
    · have hquiet' := hran.quiet rfl (hnone _ hran.shows_)
      simp [toSettle, hquiet, hnone, hquiet']
    · have hnone' : EmbedsNone W request (W.view v) := fun inventory hshows =>
        hran.not_embed rfl hshows
      simp only [toSettle, if_neg hquiet, if_neg hnone, if_pos hnone']
      split <;> omega

/-- What is kept while the session is left alone. -/
structure Watch.LeftAlone (W : Workspace fs coordinated paths) (s : Watch σ ω) : Prop where
  sound : s.session.Sound
  undisturbed : s.disturbed = true → s.session.driver ≠ .reconciling
  separate : W.Separate (W.targets (W.view s.disk))

/-- Left alone, a run of the engine that changes files leaves fewer that can. Only the run of the
engine is left to consider, and `toSettle_of_run` says what it leaves. -/
theorem WatchStep.toSettle (hl : WatchStep W request w s a t) (ha : a.Calm)
    (hpaths : resolvePaths request.cwd request.document request.sourceRoot = .ok paths)
    (hmode : request.mode = .mutate .sync) (h : s.LeftAlone W) :
    t.LeftAlone W ∧ toSettle W request (W.view t.disk) + (if a.changes then 1 else 0) ≤
      toSettle W request (W.view s.disk) := by
  obtain ⟨hsound, hundisturbed, hseparate⟩ := h
  have hsound' := hsound.run hl.session
  cases hl with
  | edit => exact absurd rfl ha.1
  | other disk hview =>
    refine ⟨⟨hsound', hundisturbed, hview.symm ▸ hseparate⟩, ?_⟩
    simp [Activity.changes, Activity.raised, hview]
  | hint => exact ⟨⟨hsound', hundisturbed, hseparate⟩, by simp [Activity.changes, Activity.raised]⟩
  | schedule l u hl hhint hbegin hend hstop =>
    refine ⟨⟨hsound', fun hd => mt (hl.reconciling_iff hbegin hend).1 (hundisturbed hd), hseparate⟩,
      by simp [Activity.changes, Activity.raised]⟩
  | beginReconciliation u hl =>
    exact ⟨⟨hsound', by simp, hseparate⟩, by simp [Activity.changes, Activity.raised]⟩
  | runDisturbed r disk raised hdriver _ hdisturbed => exact absurd hdriver (hundisturbed hdisturbed)
  | endReconciliation r reported reporter u hsome _ hl =>
    refine ⟨⟨hsound', fun _ => ?_, hseparate⟩, by simp [Activity.changes, Activity.raised]⟩
    cases hl
    split <;> simp [Session.setDriver]
  | stop _ _ u _ hl =>
    refine ⟨⟨hsound', fun _ => ?_, hseparate⟩, by simp [Activity.changes, Activity.raised]⟩
    cases hl
    simp [Session.setDriver]
  | run r disk raised hdriver hnone hclear hrun hraised hquiet =>
    cases r with
    | error e => exact absurd rfl (ha.2 raised)
    | ok report =>
      obtain ⟨hseparate', hsettles⟩ := toSettle_of_run hrun hpaths hmode hseparate
      refine ⟨⟨hsound', hundisturbed, hseparate'⟩, ?_⟩
      rcases hsettles with hview | hless
      · rw [hview, hquiet rfl hview]
        exact Nat.le_refl _
      · refine (Nat.add_le_add_left ?_ _).trans hless
        split <;> omega

/-- Where the session is not at rest and has not returned, it can go on by itself. The driver has a
step in each of its states but two: in `recv` with an empty slot, and behind its return. -/
theorem WatchStep.exists_own {ls : List Label} (hsession : SessionRun ls s.session) :
    s.Rests ∨ s.session.driver = .returned ∨
      ∃ a t, WatchStep W request w s a t ∧ a.isOwn = true := by
  rcases s.session.moves_or with ⟨l, u, hl, hdriver⟩ | hd | ⟨hd, hc⟩
  · refine .inr (.inr ?_)
    cases l with
    | hint | swap | sendControl => cases hdriver
    | load | tryRecv | recv =>
      exact ⟨_, _, .schedule s _ u hl (by simp) (by simp) (by simp) (by simp), rfl⟩
    | beginReconciliation => exact ⟨_, _, .beginReconciliation s u hl, rfl⟩
    | stop => exact ⟨_, _, .stop s _ _ u rfl hl, rfl⟩
    | endReconciliation written =>
      have hreconciling : s.session.driver = .reconciling := by cases hl; assumption
      cases hresult : s.result with
      | some r =>
        exact ⟨_, _, .endReconciliation s r _ _ _ hresult rfl (.endReconciliation _ _ hreconciling),
          rfl⟩
      | none =>
        cases hdisturbed : s.disturbed with
        | true =>
          exact ⟨_, _, .runDisturbed s (.ok ⟨[], .synchronized⟩) s.disk 0 hreconciling hresult
            hdisturbed, rfl⟩
        | false =>
          by_cases hview : W.view (execute fs coordinated request s.disk).2 = W.view s.disk
          · exact ⟨_, _, .run s _ _ 0 hreconciling hresult hdisturbed rfl (absurd hview) fun _ _ => rfl,
              rfl⟩
          · exact ⟨_, _, .run s _ _ 1 hreconciling hresult hdisturbed rfl (fun _ => by simp)
              fun _ heq => absurd heq hview, rfl⟩
  · exact .inr (.inl hd)
  · rcases Nat.eq_zero_or_pos s.events with hevents | hevents
    · cases hs : s.session.shutdown with
      | false => exact .inl ⟨hd, hc, hs, hevents⟩
      | true =>
        refine .inr (.inr ?_)
        rcases hsession.sending_or_sent hs with hsending | hsent
        · exact ⟨_, _, .schedule s _ _ (.sendControl _ hsending) (by simp) (by simp) (by simp)
            (by simp), rfl⟩
        · exact absurd hc ((hsession.inv.handled hsent).2 hd)
    · exact .inr (.inr ⟨_, _, .hint s 0 hevents, rfl⟩)

/-- A session that is left alone, and whose engine returns, comes to rest. The engine changes files
twice at most, the session takes no more steps than the events pay for, and as long as it is not at
rest and has not returned it can take another one. That it is left alone means that nobody edits a
file, and that no edit falls into a run that has begun. The targets are taken to be separate. -/
theorem Watch.Starts.comes_to_rest {u : Watch σ ω} {as bs : List Activity} (h : s.Starts)
    (hbefore : Trace (WatchStep W request w) s bs t) (hrun : Trace (WatchStep W request w) t as u)
    (hcalm : ∀ a ∈ as, a.Calm)
    (hundisturbed : t.disturbed = true → t.session.driver ≠ .reconciling)
    {cwd document : Path} {sourceRoot : Option Path}
    (hrequest : request = liveRequest cwd document sourceRoot)
    (hpaths : resolvePaths cwd document sourceRoot = .ok paths)
    (hseparate : W.Separate (W.targets (W.view t.disk))) :
    as.countP Activity.changes ≤ 2 ∧
      as.countP Activity.isOwn ≤ 54 + 20 * (t.events + (as.map Activity.raised).sum) ∧
      (u.Rests ∨ u.session.driver = .returned ∨
        ∃ a v, WatchStep W request w u a v ∧ a.isOwn = true) := by
  have hmode : request.mode = .mutate .sync := by rw [hrequest]; rfl
  have hresolved : resolvePaths request.cwd request.document request.sourceRoot = .ok paths := by
    rw [hrequest]; exact hpaths
  have hsound := (h.run hbefore).sound
  have hcalmrun := hrun.restrict hcalm
  refine ⟨?_, ?_, ?_⟩
  · have hstep : ∀ (s : Watch σ ω) (a : Activity) (t : Watch σ ω), s.LeftAlone W →
        WatchStep W request w s a t ∧ a.Calm → t.LeftAlone W ∧
          toSettle W request (W.view t.disk) + (if a.changes then 1 else 0) ≤
            toSettle W request (W.view s.disk) + (fun _ => 0) a :=
      fun s a t hs hl => hl.1.toSettle hl.2 hresolved hmode hs
    have hpaid := (hcalmrun.amortized ⟨hsound, hundisturbed, hseparate⟩ hstep).2
    have hmost : toSettle W request (W.view t.disk) ≤ 2 := toSettle_le _
    rw [sum_map_indicator, List.map_const', List.sum_replicate, smul_zero] at hpaid
    omega
  · have hstep : ∀ (s : Watch σ ω) (a : Activity) (t : Watch σ ω), s.session.Sound →
        WatchStep W request w s a t ∧ a.Calm → t.session.Sound ∧
          t.toRest + (if a.isOwn then 1 else 0) ≤ s.toRest + 20 * a.raised :=
      fun s a t hs hl => ⟨hs.run hl.1.session, hl.1.toRest hs hl.2.1⟩
    have hpaid := (hcalmrun.amortized hsound hstep).2
    have hmost := t.toRest_le
    rw [sum_map_indicator, List.sum_map_mul_left] at hpaid
    omega
  · have hall := hbefore.append hrun
    have hsession := session_of_trace hall
    rw [h.session] at hsession
    exact WatchStep.exists_own hsession

end

/-! ## Samples -/

/-- The paths of the sample are plain names. -/
theorem sampleResolved_root_plain : PlainNames sampleResolved.sourceRoot.components := by
  simp [PlainNames, sampleResolved]

/-- The document of the sample stands in the root. -/
theorem sampleResolved_document_plain : PlainNames sampleResolved.document.components := by
  simp [PlainNames, sampleResolved, sampleDocumentName]

/-- The sample trees as a workspace of coordinated accesses. -/
noncomputable def liveWorkspace : Workspace (treeFilesystem []) sampleAccess sampleResolved :=
  treeWorkspace [] (fun _ _ _ => rfl) sampleResolved_root_plain sampleResolved_document_plain

/-- The request of a session over the sample document. -/
def sampleLiveRequest : Request := liveRequest ⟨true, []⟩ ⟨false, [sampleDocumentName]⟩ none

/-- A session over a filesystem without a document. -/
def sampleWatch : Watch Tree (List Str) := ⟨.start, bareTree, ⟨[], none⟩, false, none, 0⟩

/-- What the session does until its first run has failed. -/
def failingActivities : List Activity :=
  [.session (.load false), .session .beginReconciliation, .run false 0,
    .session (.endReconciliation true)]

/-- What it does then. -/
def restingActivities : List Activity :=
  [.session (.load false), .session (.tryRecv none), .session (.load false), .session (.load false)]

/-- A session over a tree without the document: its initial run fails, and then it comes to rest.
The failure is printed, and nothing is pending any more. -/
theorem exists_resting : let _ : Sha256 := lfDigest
    let _ : Texts := sampleTexts
    ∃ t u, Trace (WatchStep liveWorkspace sampleLiveRequest sampleWriter) sampleWatch
        failingActivities t ∧ t.session.driver = .afterReconciliation ∧
      Trace (WatchStep liveWorkspace sampleLiveRequest sampleWriter) t restingActivities u ∧
      u.Rests := by
  intro hsha htexts
  refine ⟨_, _, .cons (.schedule _ _ _ (.loadStarting _ rfl) (by simp) (by simp) (by simp) (by simp))
    (.cons (.beginReconciliation _ _ (.beginReconciliation _ rfl))
      (.cons (.run _ (.error _) bareTree 0 rfl rfl rfl rfl (absurd rfl) (by simp))
        (.cons (.endReconciliation _ _ (.ok ()) _ _ rfl rfl (.endReconciliation _ true rfl))
          (.nil _)))), rfl,
    .cons (.schedule _ _ _ (.loadAfter _ rfl) (by simp) (by simp) (by simp) (by simp))
      (.cons (.schedule _ _ _ (.tryRecv _ rfl) (by simp) (by simp) (by simp) (by simp))
        (.cons (.schedule _ _ _ (.loadDeciding _ none rfl) (by simp) (by simp) (by simp) (by simp))
          (.cons (.schedule _ _ _ (.loadWaiting _ rfl) (by simp) (by simp) (by simp) (by simp))
            (.nil _)))), rfl, rfl, rfl, rfl⟩

/-- This session rests behind the message of its failure. The document is missing, and this is what
its last line says. -/
theorem rest_tells_sample : let _ : Sha256 := lfDigest
    let _ : Texts := sampleTexts
    ∃ t : Watch Tree (List Str), t.Rests ∧ ∃ ms : List Message,
      sampleWriter.lines t.reporter.writer = sampleWriter.lines [] ++ ms.map Message.text ∧
      ((∃ inventory, liveWorkspace.Shows (liveWorkspace.view t.disk) inventory ∧
        liveWorkspace.Quiet sampleLiveRequest .sync (liveWorkspace.view t.disk) ∧
        ∃ exit, Tells ms (.ok ⟨unsettled inventory.entries, exit⟩)) ∨
      ∃ error, t.Leaves liveWorkspace sampleLiveRequest (.error error) ∧
        Tells ms (.error error)) := by
  intro hsha htexts
  obtain ⟨t, u, hfailing, -, hresting, hrest⟩ := exists_resting
  exact ⟨u, hrest, Watch.Starts.rest_tells ⟨rfl, rfl, rfl⟩ (hfailing.append hresting) hrest rfl rfl
    (treeWorkspace_separate _ _ _ _ (Workspace.targets_free _ _))⟩

/-- On the rest of its way this session keeps both bounds. -/
theorem comes_to_rest_sample : let _ : Sha256 := lfDigest
    let _ : Texts := sampleTexts
    ∃ t u : Watch Tree (List Str), restingActivities.countP Activity.changes ≤ 2 ∧
      restingActivities.countP Activity.isOwn ≤
        54 + 20 * (t.events + (restingActivities.map Activity.raised).sum) ∧
      (u.Rests ∨ u.session.driver = .returned ∨
        ∃ a v, WatchStep liveWorkspace sampleLiveRequest sampleWriter u a v ∧ a.isOwn = true) := by
  intro hsha htexts
  obtain ⟨t, u, hfailing, hdriver, hresting, -⟩ := exists_resting
  exact ⟨t, u, Watch.Starts.comes_to_rest ⟨rfl, rfl, rfl⟩ hfailing hresting
    (by simp [restingActivities, Activity.Calm]) (by simp [hdriver]) rfl rfl
    (treeWorkspace_separate _ _ _ _ (Workspace.targets_free _ _))⟩

end Zwirn.Live
