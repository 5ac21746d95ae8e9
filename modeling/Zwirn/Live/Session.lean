import Zwirn.Lib.Transition

/-!
# The live session

The foreground driver, the signal thread and the monitor meet at a wake channel of one slot and a
shutdown flag. Each load, swap, send and receive is one step, so the parties interleave freely.
`Inv` is what every run keeps (`SessionRun.inv`); from it follow that no hint is lost
(`SessionRun.hint_not_lost`) and that shutdown is not lost and bounded to one racing run
(`SessionRun.shutdown_bounded`). The code is in `src/live.rs`, and the monitor callback in
`src/live/macos.rs`.
-/

namespace Zwirn.Live

open Lib

/-- One bounded prompt for the driver to inspect boundary state. -/
inductive Wake
  | filesystem
  | control
deriving DecidableEq, Repr

/-- What the loop of the driver does next. -/
inductive Next
  | reconcile
  | wait
  | stop
deriving DecidableEq, Repr

/-- The decision at a boundary between two runs. Shutdown wins over a filesystem wake. -/
def boundaryNext (shutdown : Bool) (wake : Option Wake) : Next :=
  if shutdown ∨ wake = some .control then .stop
  else if wake = some .filesystem then .reconcile
  else .wait

/-- Where the driver is. From each place it takes one load, receive or call, so that other threads
can come in between. -/
inductive Driver
  /-- In `run`, before the load that decides about the initial run. -/
  | starting
  /-- At the top of the loop with `Next::Reconcile`. -/
  | toReconcile
  /-- In the call of the engine or in its diagnostics. -/
  | reconciling
  /-- In `next_after_reconciliation`, before its first load. -/
  | afterReconciliation
  /-- In `next_after_reconciliation`, before `try_recv`. -/
  | trying
  /-- Before the load that is passed to `boundary_next` together with `wake`. -/
  | deciding (wake : Option Wake)
  /-- In `wait_for_boundary`, before its first load. -/
  | waiting
  /-- In `recv`. -/
  | receiving
  /-- At the top of the loop with `Next::Stop`. -/
  | stopping
  /-- `run` has returned. -/
  | returned
deriving DecidableEq, Repr

/-- Where the loop goes on for a decision. -/
def Next.driver : Next → Driver
  | .reconcile => .toReconcile
  | .wait => .waiting
  | .stop => .stopping

/-- Where the signal thread is: waiting for a signal, or between the first swap and its send. -/
inductive SignalThread
  | waiting
  | sending
deriving DecidableEq, Repr

/-- The state that the three parties share: the channel with its one slot, the shutdown flag, and
where the signal thread and the driver are. It stands for the `Driver` and for what it shares with
the callback and the signal thread. -/
structure Session where
  channel : Option Wake
  shutdown : Bool
  signals : SignalThread
  driver : Driver
deriving DecidableEq, Repr

namespace Session

/-- The session as it starts: nothing in the channel, the flag clear, and the initial run not
decided yet. -/
def start : Session := ⟨none, false, .waiting, .starting⟩

/-- `try_send`: a full slot stays as it is. -/
def trySend (s : Session) (wake : Wake) : Session :=
  { s with channel := some (s.channel.getD wake) }

/-- The driver goes on, and nothing else changes. -/
def setDriver (s : Session) (driver : Driver) : Session := { s with driver := driver }

/-- The driver goes on with what was in the channel. -/
def takeWake (s : Session) (driver : Driver) : Session :=
  { s with channel := none, driver := driver }

end Session

/-- The observable part of a step. A load carries what it has seen, and a receive what it has
taken. -/
inductive Label
  /-- The monitor callback executes its `try_send`. -/
  | hint
  /-- The signal thread swaps the flag; `before` is the value it finds. -/
  | swap (before : Bool)
  /-- The signal thread executes its `try_send`. -/
  | sendControl
  /-- The driver loads the flag. -/
  | load (seen : Bool)
  /-- The driver executes `try_recv`. -/
  | tryRecv (wake : Option Wake)
  /-- The driver's `recv` returns. -/
  | recv (wake : Wake)
  | beginReconciliation
  /-- The reconciliation ends; `written` tells whether its diagnostics could be written. -/
  | endReconciliation (written : Bool)
  | stop
deriving DecidableEq, Repr

/-- The steps of the session. Those of the driver are the loads, receives and calls of
`Driver::run`, `next_after_reconciliation` and `wait_for_boundary`. -/
inductive Step : Session → Label → Session → Prop
  | hint (s : Session) : Step s .hint (s.trySend .filesystem)
  | swapFirst (s : Session) : s.signals = .waiting → s.shutdown = false →
      Step s (.swap false) { s with shutdown := true, signals := .sending }
  | swapAgain (s : Session) : s.signals = .waiting → s.shutdown = true → Step s (.swap true) s
  | sendControl (s : Session) : s.signals = .sending →
      Step s .sendControl { s.trySend .control with signals := .waiting }
  | loadStarting (s : Session) : s.driver = .starting →
      Step s (.load s.shutdown)
        (s.setDriver (if s.shutdown then Next.stop else Next.reconcile).driver)
  | beginReconciliation (s : Session) : s.driver = .toReconcile →
      Step s .beginReconciliation (s.setDriver .reconciling)
  | endReconciliation (s : Session) (written : Bool) : s.driver = .reconciling →
      Step s (.endReconciliation written)
        (s.setDriver (if written then .afterReconciliation else .returned))
  | loadAfter (s : Session) : s.driver = .afterReconciliation →
      Step s (.load s.shutdown) (s.setDriver (if s.shutdown then .stopping else .trying))
  | tryRecv (s : Session) : s.driver = .trying →
      Step s (.tryRecv s.channel) (s.takeWake (.deciding s.channel))
  | loadDeciding (s : Session) (wake : Option Wake) : s.driver = .deciding wake →
      Step s (.load s.shutdown) (s.setDriver (boundaryNext s.shutdown wake).driver)
  | loadWaiting (s : Session) : s.driver = .waiting →
      Step s (.load s.shutdown) (s.setDriver (if s.shutdown then .stopping else .receiving))
  | recv (s : Session) (wake : Wake) : s.driver = .receiving → s.channel = some wake →
      Step s (.recv wake) (s.takeWake (.deciding (some wake)))
  | stop (s : Session) : s.driver = .stopping → Step s .stop (s.setDriver .returned)

/-! ## What a run has seen -/

/-- A hint was delivered, and no reconciliation has begun since. -/
def HintPending (ls : List Label) : Prop :=
  ∃ before after, ls = before ++ .hint :: after ∧ .beginReconciliation ∉ after

/-- A hint that is pending behind a step is that step, or it was pending before, and the step begins
no reconciliation. -/
theorem HintPending.concat {ls : List Label} {l : Label} (h : HintPending (ls ++ [l])) :
    l = .hint ∨ l ≠ .beginReconciliation ∧ HintPending ls := by
  obtain ⟨before, after, heq, hno⟩ := h
  induction after using List.reverseRecOn with
  | nil =>
    have := List.append_inj_right' heq rfl
    exact .inl (by simpa using this)
  | append_singleton after l' _ =>
    rw [← List.cons_append, ← List.append_assoc] at heq
    obtain ⟨h1, h2⟩ := List.append_inj' heq rfl
    obtain rfl : l = l' := by simpa using h2
    simp only [List.mem_append, List.mem_singleton, not_or] at hno
    exact .inr ⟨Ne.symm hno.2, before, after, h1, hno.1⟩

/-- The value of a load. -/
def Label.loaded : Label → Option Bool
  | .load seen => some seen
  | _ => none

/-- The value of the driver's last load. -/
def lastLoad (ls : List Label) : Option Bool := (ls.filterMap Label.loaded).getLast?

/-- A load is the last load behind it. -/
theorem lastLoad_concat_load (ls : List Label) (seen : Bool) :
    lastLoad (ls ++ [.load seen]) = some seen := by
  simp [lastLoad, Label.loaded]

/-- Another step leaves the last load as it was. -/
theorem lastLoad_concat {ls : List Label} {l : Label} (h : l.loaded = none) :
    lastLoad (ls ++ [l]) = lastLoad ls := by
  simp [lastLoad, h]

/-- The driver has decided to reconcile, or has taken a filesystem wake and only loads the flag
once more. -/
def Driver.Committed (d : Driver) : Prop := d = .toReconcile ∨ d = .deciding (some .filesystem)

/-- What every run keeps. The field `pending` is the one that hints need: a pending hint is in the
channel, or the driver has committed itself to a reconciliation. -/
structure Inv (ls : List Label) (s : Session) : Prop where
  control : s.channel = some .control → s.shutdown = true
  sending : s.signals = .sending → s.shutdown = true
  pending : HintPending ls → s.shutdown = false → s.channel = some .filesystem ∨ s.driver.Committed
  handled : .sendControl ∈ ls →
    s.shutdown = true ∧ (s.driver = .receiving → s.channel ≠ none)
  decided : s.driver = .toReconcile → lastLoad ls = some false

/-- A run of the session from its start. -/
abbrev SessionRun (ls : List Label) (s : Session) : Prop := Trace Step Session.start ls s

/-- The invariant holds at the start, where no hint was delivered. -/
theorem Inv.start : Inv [] Session.start := by
  refine ⟨by simp [Session.start], by simp [Session.start], ?_, by simp, by simp [Session.start]⟩
  rintro ⟨before, after, h, -⟩
  simp at h

section
variable {ls : List Label} {s t : Session} {l : Label}

/-- A control wake in the channel comes behind the flag. The flag is set before the wake is sent. -/
theorem Step.control (hl : Step s l t) (h : Inv ls s) :
    t.channel = some .control → t.shutdown = true := by
  cases hl with
  | hint =>
    intro hc
    cases hch : s.channel with
    | none => simp [Session.trySend, hch] at hc
    | some wake => exact h.control (by simpa [Session.trySend, hch] using hc)
  | sendControl hsend => intro _; exact h.sending hsend
  | swapFirst => intro _; rfl
  | tryRecv | recv => simp [Session.takeWake]
  | _ => exact h.control

/-- The signal thread sends only behind its swap of the flag. -/
theorem Step.sending (hl : Step s l t) (h : Inv ls s) :
    t.signals = .sending → t.shutdown = true := by
  cases hl with
  | swapFirst => intro _; rfl
  | sendControl => simp
  | _ => exact h.sending

/-- A pending hint stays in the channel or with the driver. A hint that meets a full slot is
dropped, but what is in the slot is then a wake that leads to a reconciliation. The cases are those
of the step. -/
theorem Step.pending (hl : Step s l t) (h : Inv ls s) (hp : HintPending (ls ++ [l]))
    (hs : t.shutdown = false) : t.channel = some .filesystem ∨ t.driver.Committed := by
  have hold : l ≠ .hint → s.shutdown = false →
      s.channel = some .filesystem ∨ s.driver.Committed := by
    intro hne
    rcases hp.concat with rfl | ⟨-, hp⟩
    · exact absurd rfl hne
    · exact h.pending hp
  cases hl with
  | hint =>
    -- a full slot holds a filesystem wake: a control wake comes after the flag
    refine .inl ?_
    cases hch : s.channel with
    | none => simp [Session.trySend, hch]
    | some wake =>
      cases wake with
      | filesystem => simp [Session.trySend, hch]
      | control => exact absurd (h.control hch) (by simpa [Session.trySend] using hs)
  | swapFirst => cases hs
  | swapAgain _ hb => rw [hb] at hs; cases hs
  | sendControl hsend => exact absurd (h.sending hsend) (by simpa [Session.trySend] using hs)
  | beginReconciliation =>
    rcases hp.concat with hc | ⟨hc, -⟩
    · cases hc
    · exact absurd rfl hc
  | tryRecv hd =>
    rcases hold (by simp) hs with hc | hc
    · rw [hc]; exact .inr (.inr rfl)
    · simp [Driver.Committed, hd] at hc
  | recv _ hd hw =>
    rcases hold (by simp) hs with hc | hc
    · rw [hc] at hw; cases hw; exact .inr (.inr rfl)
    · simp [Driver.Committed, hd] at hc
  | loadDeciding wake hd =>
    have hs : s.shutdown = false := hs
    rcases hold (by simp) hs with hc | hc | hc
    · exact .inl hc
    · rw [hd] at hc; cases hc
    · rw [hd] at hc
      cases hc
      refine .inr (.inl ?_)
      simp [Session.setDriver, boundaryNext, Next.driver, show s.shutdown = false from hs]
  | loadStarting hd | loadAfter hd | loadWaiting hd | stop hd | endReconciliation _ hd =>
    refine (hold (by simp) hs).imp_right fun hc => ?_
    simp [Driver.Committed, hd] at hc

/-- After the control send the flag is set, and a driver in `recv` has a wake to take. The flag is
set before the send, so a driver that comes to `recv` later has seen it. A driver that is in `recv`
finds the slot full. -/
theorem Step.handled (hl : Step s l t) (h : Inv ls s) (hm : .sendControl ∈ ls ++ [l]) :
    t.shutdown = true ∧ (t.driver = .receiving → t.channel ≠ none) := by
  have hold : l ≠ .sendControl →
      s.shutdown = true ∧ (s.driver = .receiving → s.channel ≠ none) := by
    intro hne
    rcases List.mem_append.1 hm with hm | hm
    · exact h.handled hm
    · exact absurd (List.mem_singleton.1 hm).symm hne
  cases hl with
  | sendControl hsend => exact ⟨h.sending hsend, by simp [Session.trySend]⟩
  | hint => exact ⟨(hold (by simp)).1, by simp [Session.trySend]⟩
  | swapFirst _ hb =>
    have := (hold (by simp)).1
    rw [hb] at this
    cases this
  | swapAgain => exact hold (by simp)
  | loadDeciding wake =>
    have hs := (hold (by simp)).1
    refine ⟨hs, ?_⟩
    simp [Session.setDriver, hs, boundaryNext, Next.driver]
  | endReconciliation written =>
    have hs := (hold (by simp)).1
    refine ⟨hs, ?_⟩
    cases written <;> simp [Session.setDriver]
  | _ =>
    have hs := (hold (by simp)).1
    refine ⟨hs, ?_⟩
    simp [Session.setDriver, Session.takeWake, Next.driver, hs]

/-- The driver reconciles only after a load of a clear flag. Behind the load nothing but the
beginning of the reconciliation is left to the driver. -/
theorem Step.decided (hl : Step s l t) (h : Inv ls s) (hd : t.driver = .toReconcile) :
    lastLoad (ls ++ [l]) = some false := by
  cases hl with
  | hint | swapFirst | swapAgain | sendControl =>
    rw [lastLoad_concat rfl]
    exact h.decided hd
  | loadStarting =>
    rw [lastLoad_concat_load]
    cases hs : s.shutdown with
    | false => rfl
    | true => simp [Session.setDriver, hs, Next.driver] at hd
  | loadDeciding wake =>
    rw [lastLoad_concat_load]
    cases hs : s.shutdown with
    | false => rfl
    | true => simp [Session.setDriver, hs, boundaryNext, Next.driver] at hd
  | loadAfter | loadWaiting =>
    cases hs : s.shutdown <;> simp [Session.setDriver, hs] at hd
  | endReconciliation written => cases written <;> simp [Session.setDriver] at hd
  | tryRecv | recv => simp [Session.takeWake] at hd
  | beginReconciliation | stop => simp [Session.setDriver] at hd

/-- Every step keeps the invariant, part by part. -/
theorem Inv.step (h : Inv ls s) (hl : Step s l t) : Inv (ls ++ [l]) t :=
  ⟨hl.control h, hl.sending h, hl.pending h, hl.handled h, hl.decided h⟩

/-- So it holds in every run, by induction on the steps. -/
theorem SessionRun.inv (h : SessionRun ls s) : Inv ls s :=
  Trace.invariant h Inv.start fun _ _ _ _ => Inv.step

/-! ## Hints -/

/-- The driver takes a wake, or finds none. -/
def Label.Receives (l : Label) : Prop := (∃ wake, l = .tryRecv wake) ∨ ∃ wake, l = .recv wake

/-- The driver is committed to a reconciliation, or has stopped on shutdown instead. -/
def Session.Bound (s : Session) : Prop :=
  s.driver.Committed ∨ s.shutdown = true ∧ (s.driver = .stopping ∨ s.driver = .returned)

/-- A committed driver begins a reconciliation or stops; it takes no wake before. The cases are
those of the step, and only the driver's own steps matter. -/
theorem Session.Bound.step (h : s.Bound) (hl : Step s l t) (hne : l ≠ .beginReconciliation) :
    t.Bound ∧ ¬ l.Receives := by
  simp only [Session.Bound, Driver.Committed] at h
  cases hl with
  | hint | swapAgain | sendControl => exact ⟨h, by simp [Label.Receives]⟩
  | swapFirst => exact ⟨h.imp_right fun hc => ⟨rfl, hc.2⟩, by simp [Label.Receives]⟩
  | beginReconciliation => exact absurd rfl hne
  | loadDeciding wake hd =>
    refine ⟨?_, by simp [Label.Receives]⟩
    obtain rfl : wake = some .filesystem := by simpa [hd] using h
    cases hs : s.shutdown with
    | false => exact .inl (.inl (by simp [Session.setDriver, boundaryNext, Next.driver]))
    | true => exact .inr ⟨hs, .inl (by simp [Session.setDriver, boundaryNext, Next.driver])⟩
  | stop hd =>
    have hs : s.shutdown = true := by simpa [hd] using h
    exact ⟨.inr ⟨hs, .inr rfl⟩, by simp [Label.Receives]⟩
  | loadStarting hd | loadAfter hd | loadWaiting hd | tryRecv hd | recv _ hd
  | endReconciliation _ hd => simp [hd] at h

/-- A committed driver stays so until it begins a reconciliation, and takes no wake before. The
induction is on the run. -/
theorem Session.Bound.run (h : Trace Step s ls t) (hs : s.Bound)
    (hno : .beginReconciliation ∉ ls) : t.Bound ∧ ∀ l ∈ ls, ¬ l.Receives := by
  induction h with
  | nil => exact ⟨hs, by simp⟩
  | cons hl _ ih =>
    rw [List.mem_cons, not_or] at hno
    obtain ⟨ht, hr⟩ := hs.step hl (Ne.symm hno.1)
    obtain ⟨hu, hall⟩ := ih ht hno.2
    exact ⟨hu, List.forall_mem_cons.2 ⟨hr, hall⟩⟩

/-- A delivered hint is not lost. Until a reconciliation begins or shutdown is requested it is in
the channel, or the driver has taken it and goes on to a reconciliation unless shutdown stops it;
a running reconciliation leaves it in the channel, and `recv` does not block. -/
theorem SessionRun.hint_not_lost (h : SessionRun ls s) (hp : HintPending ls)
    (hs : s.shutdown = false) :
    (s.channel = some .filesystem ∨ s.driver.Committed) ∧
    (s.driver.Committed → ∀ ls' t, Trace Step s ls' t → .beginReconciliation ∉ ls' →
      t.Bound ∧ ∀ l ∈ ls', ¬ l.Receives) ∧
    (s.driver = .reconciling → s.channel = some .filesystem) ∧
    ¬ (s.driver = .receiving ∧ s.channel = none) := by
  have hold := h.inv.pending hp hs
  refine ⟨hold, fun hc _ _ hrun hno => Session.Bound.run hrun (.inl hc) hno, fun hd => ?_, ?_⟩
  · exact hold.resolve_right fun hc => by simp [Driver.Committed, hd] at hc
  · intro hblocked
    rcases hold with hc | hc
    · rw [hblocked.2] at hc; cases hc
    · simp [Driver.Committed, hblocked.1] at hc

end

/-- A hint that arrives while the initial run goes on is in the channel. The run that goes on may
have read the files before the edit, so another one is needed. -/
theorem hint_not_lost_during_initial_run :
    let s : Session := ⟨some .filesystem, false, .waiting, .reconciling⟩
    (s.channel = some .filesystem ∨ s.driver.Committed) ∧
    (s.driver.Committed → ∀ ls' t, Trace Step s ls' t → .beginReconciliation ∉ ls' →
      t.Bound ∧ ∀ l ∈ ls', ¬ l.Receives) ∧
    (s.driver = .reconciling → s.channel = some .filesystem) ∧
    ¬ (s.driver = .receiving ∧ s.channel = none) :=
  @SessionRun.hint_not_lost [.load false, .beginReconciliation, .hint] _
    (.cons (.loadStarting _ rfl) (.cons (.beginReconciliation _ rfl) (.cons (.hint _) (.nil _))))
    ⟨[.load false, .beginReconciliation], [], rfl, by simp⟩ rfl

/-! ## Shutdown -/

section
variable {ls : List Label} {s t : Session} {l : Label}

/-- The driver observes the flag or receives a control wake. -/
def Label.Accepts (l : Label) : Prop :=
  l = .load true ∨ l = .tryRecv (some .control) ∨ l = .recv .control

/-- The driver has accepted shutdown. -/
def Driver.Accepted (d : Driver) : Prop :=
  d = .deciding (some .control) ∨ d = .stopping ∨ d = .returned

/-- A step that accepts the shutdown leaves the driver on its way to the end. The cases are those of
the step. -/
theorem Step.accepted_of_accepts (hl : Step s l t) (ha : l.Accepts) : t.driver.Accepted := by
  simp only [Label.Accepts] at ha
  cases hl with
  | loadStarting | loadAfter | loadWaiting =>
    have hs : s.shutdown = true := by simpa using ha
    simp [Driver.Accepted, Session.setDriver, hs, Next.driver]
  | loadDeciding wake =>
    have hs : s.shutdown = true := by simpa using ha
    simp [Driver.Accepted, Session.setDriver, hs, boundaryNext, Next.driver]
  | tryRecv =>
    have hw : s.channel = some .control := by simpa using ha
    simp [Driver.Accepted, Session.takeWake, hw]
  | recv wake =>
    obtain rfl : wake = .control := by simpa using ha
    simp [Driver.Accepted, Session.takeWake]
  | _ => simp at ha

/-- A driver that has accepted shutdown begins no reconciliation. -/
theorem Step.accepted (hl : Step s l t) (ha : s.driver.Accepted) :
    t.driver.Accepted ∧ l ≠ .beginReconciliation := by
  cases hl with
  | hint | swapFirst | swapAgain | sendControl => exact ⟨ha, by simp⟩
  | loadDeciding wake hd =>
    obtain rfl : wake = some .control := by simpa [Driver.Accepted, hd] using ha
    exact ⟨by simp [Driver.Accepted, Session.setDriver, boundaryNext, Next.driver], by simp⟩
  | stop => exact ⟨.inr (.inr rfl), by simp⟩
  | loadStarting hd | loadAfter hd | loadWaiting hd | tryRecv hd | recv _ hd
  | endReconciliation _ hd | beginReconciliation hd => simp [Driver.Accepted, hd] at ha

/-- The reconciliations that can still begin once the flag is set. -/
def Driver.remaining (d : Driver) : Nat := if d = .toReconcile then 1 else 0

/-- Once shutdown is requested each step keeps it, and a run that begins was still to come. The
driver looks at the flag before it begins another run. -/
theorem Step.remaining (hl : Step s l t) (hs : s.shutdown = true) : t.shutdown = true ∧
    t.driver.remaining + (if l = .beginReconciliation then 1 else 0) ≤ s.driver.remaining := by
  cases hl with
  | hint | swapAgain | sendControl => exact ⟨hs, Nat.le_refl _⟩
  | swapFirst _ hb => rw [hb] at hs; cases hs
  | beginReconciliation hd => exact ⟨hs, by simp [Driver.remaining, Session.setDriver, hd]⟩
  | loadDeciding wake =>
    refine ⟨hs, ?_⟩
    simp [Driver.remaining, Session.setDriver, hs, boundaryNext, Next.driver]
  | endReconciliation written =>
    refine ⟨hs, ?_⟩
    cases written <;> simp [Driver.remaining, Session.setDriver]
  | _ =>
    refine ⟨hs, ?_⟩
    simp [Driver.remaining, Session.setDriver, Session.takeWake, hs, Next.driver]

/-- Shutdown is neither lost nor unbounded. After the first signal is handled the driver is never
blocked in `recv`; at most one reconciliation begins once the flag is set, each begins after a load
of a clear flag, and none begins once the driver has accepted shutdown. -/
theorem SessionRun.shutdown_bounded (h : SessionRun ls s) :
    (.sendControl ∈ ls → ¬ (s.driver = .receiving ∧ s.channel = none)) ∧
    (∀ before after, ls = before ++ .swap false :: after →
      after.count .beginReconciliation ≤ 1) ∧
    (∀ before after, ls = before ++ .beginReconciliation :: after →
      lastLoad before = some false) ∧
    ∀ before l after, ls = before ++ l :: after → l.Accepts → .beginReconciliation ∉ after := by
  refine ⟨fun hm hb => (h.inv.handled hm).2 hb.1 hb.2, fun before after heq => ?_,
    fun before after heq => ?_, fun before l after heq ha => ?_⟩ <;> subst heq
  · obtain ⟨s₁, -, h₂⟩ := h.append_inv
    obtain ⟨s₂, hl, h₃⟩ := h₂.cons_inv
    have hs : s₂.shutdown = true := by cases hl; rfl
    have hle := h₃.count_le_budget (l := .beginReconciliation) hs
      fun _ _ _ hs hl => hl.remaining hs
    refine hle.trans ?_
    unfold Driver.remaining
    split <;> omega
  · obtain ⟨s₁, h₁, h₂⟩ := h.append_inv
    obtain ⟨s₂, hl, -⟩ := h₂.cons_inv
    have hd : s₁.driver = .toReconcile := by cases hl; assumption
    exact (SessionRun.inv h₁).decided hd
  · obtain ⟨s₁, -, h₂⟩ := h.append_inv
    obtain ⟨s₂, hl, h₃⟩ := h₂.cons_inv
    have hall := (h₃.forall_of_closed (hl.accepted_of_accepts ha)
      fun _ _ _ hs hl => hl.accepted hs).2
    exact fun hm => hall _ hm rfl

end

/-- A signal between the initial load and the initial run: one reconciliation races with it. It is
the only one, since the next load sees the flag. -/
theorem shutdown_bounded_racing_run :
    let ls : List Label := [.load false, .swap false, .beginReconciliation, .sendControl,
      .endReconciliation true, .load true, .stop]
    let s : Session := ⟨some .control, true, .waiting, .returned⟩
    (.sendControl ∈ ls → ¬ (s.driver = .receiving ∧ s.channel = none)) ∧
    (∀ before after, ls = before ++ .swap false :: after →
      after.count .beginReconciliation ≤ 1) ∧
    (∀ before after, ls = before ++ .beginReconciliation :: after →
      lastLoad before = some false) ∧
    ∀ before l after, ls = before ++ l :: after → l.Accepts → .beginReconciliation ∉ after :=
  SessionRun.shutdown_bounded
    (.cons (.loadStarting _ rfl) (.cons (.swapFirst _ rfl rfl) (.cons (.beginReconciliation _ rfl)
      (.cons (.sendControl _ rfl) (.cons (.endReconciliation _ true rfl)
        (.cons (.loadAfter _ rfl) (.cons (.stop _ rfl) (.nil _))))))))

end Zwirn.Live
