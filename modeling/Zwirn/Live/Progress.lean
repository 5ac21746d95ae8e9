import Zwirn.Live.Session

/-!
# Progress of the session

What the session does in bounded time. Without hints the driver comes to rest
(`SessionRun.work_le`). A driver that is not blocked on an empty channel can step; with a hint
pending it steps four times at most before a reconciliation begins (`SessionRun.hint_served`), and
once shutdown is requested it steps four times at most before it returns
(`SessionRun.shutdown_served`).
-/

namespace Zwirn.Live

open Lib

/-! ## Reconciliations and hints -/

/-- Whether the driver is on its way to a reconciliation. -/
def Driver.wakes : Driver → Nat
  | .starting | .toReconcile | .deciding (some .filesystem) => 1
  | _ => 0

/-- The wakes on the way to a reconciliation. -/
def Session.wakes (s : Session) : Nat :=
  (if s.channel = some .filesystem then 1 else 0) + s.driver.wakes

section
variable {ls ls' : List Label} {s t : Session} {l : Label}

/-- A reconciliation uses up a wake, and only a hint gives one. The wakes that count are the one in
the channel and the one that the driver has taken. The cases are those of the step. -/
theorem Step.wakes (hl : Step s l t) :
    t.wakes + (if l = .beginReconciliation then 1 else 0) ≤
      s.wakes + if l = .hint then 1 else 0 := by
  cases hl with
  | hint =>
    cases hc : s.channel with
    | none =>
      simp [Session.wakes, Session.trySend, hc]
      omega
    | some wake => simp [Session.wakes, Session.trySend, hc]
  | swapFirst | swapAgain => simp [Session.wakes]
  | sendControl => cases hc : s.channel <;> simp [Session.wakes, Session.trySend, hc]
  | loadStarting hd =>
    cases s.shutdown <;> simp [Session.wakes, Session.setDriver, Driver.wakes, hd, Next.driver]
  | beginReconciliation hd | stop hd =>
    simp [Session.wakes, Session.setDriver, Driver.wakes, hd]
    rfl
  | endReconciliation written hd =>
    cases written <;> simp [Session.wakes, Session.setDriver, Driver.wakes, hd]
  | loadAfter hd | loadWaiting hd =>
    cases s.shutdown <;> simp [Session.wakes, Session.setDriver, Driver.wakes, hd]
  | tryRecv hd =>
    rcases hc : s.channel with _ | _ | _ <;>
      simp [Session.wakes, Session.takeWake, Driver.wakes, hd, hc]
  | recv wake hd hc =>
    cases wake <;> simp [Session.wakes, Session.takeWake, Driver.wakes, hd, hc]
  | loadDeciding wake hd =>
    cases s.shutdown <;> rcases wake with _ | _ | _ <;>
      simp [Session.wakes, Session.setDriver, Driver.wakes, hd, boundaryNext, Next.driver]

/-- The number of the steps with a label, as the sum of what they cost. -/
theorem sum_map_ite (l : Label) (ls : List Label) :
    (ls.map fun l' => if l' = l then 1 else 0).sum = ls.count l := by
  induction ls with
  | nil => rfl
  | cons l' ls ih =>
    rw [List.map_cons, List.sum_cons, ih, List.count_cons, Nat.add_comm]
    simp

/-- Reconciliations use up the wakes there are, and the hints that are delivered. -/
theorem reconciliations_of_trace (hrun : Trace Step s ls t) :
    t.wakes + ls.count .beginReconciliation ≤ s.wakes + ls.count .hint := by
  have hpaid := (hrun.amortized (P := fun _ => True) trivial fun _ _ _ _ hl =>
    ⟨trivial, hl.wakes⟩).2
  rwa [sum_map_ite, sum_map_ite] at hpaid

/-! ## Steps of the driver -/

/-- The step is one of the driver. -/
def Label.isDriver : Label → Bool
  | .hint | .swap _ | .sendControl => false
  | _ => true

/-- The driver can step. -/
def Session.Moves (s : Session) : Prop := ∃ l t, Step s l t ∧ l.isDriver = true

/-- The driver is blocked in `recv`. -/
def Session.Blocked (s : Session) : Prop := s.driver = .receiving ∧ s.channel = none

/-- A driver that cannot step has returned or is blocked. It is blocked in `recv` with nothing in
the channel, and there only. -/
theorem Session.moves_or (s : Session) : s.Moves ∨ s.driver = .returned ∨ s.Blocked := by
  cases hd : s.driver with
  | starting => exact .inl ⟨_, _, .loadStarting s hd, rfl⟩
  | toReconcile => exact .inl ⟨_, _, .beginReconciliation s hd, rfl⟩
  | reconciling => exact .inl ⟨_, _, .endReconciliation s true hd, rfl⟩
  | afterReconciliation => exact .inl ⟨_, _, .loadAfter s hd, rfl⟩
  | trying => exact .inl ⟨_, _, .tryRecv s hd, rfl⟩
  | deciding wake => exact .inl ⟨_, _, .loadDeciding s wake hd, rfl⟩
  | waiting => exact .inl ⟨_, _, .loadWaiting s hd, rfl⟩
  | receiving =>
    cases hc : s.channel with
    | none => exact .inr (.inr ⟨hd, hc⟩)
    | some wake => exact .inl ⟨_, _, .recv s wake hd hc, rfl⟩
  | stopping => exact .inl ⟨_, _, .stop s hd, rfl⟩
  | returned => exact .inr (.inl rfl)

/-- The steps that a driver with a wake to take, or taken, needs before it begins. From `recv` these
are the receive and one load. -/
def Driver.toBegin : Driver → Nat
  | .toReconcile => 0
  | .starting | .deciding (some .filesystem) => 1
  | .receiving | .trying => 2
  | .waiting | .afterReconciliation => 3
  | .deciding none | .reconciling => 4
  | _ => 0

/-- The steps that a driver needs to return, once shutdown is requested. -/
def Driver.toReturn : Driver → Nat
  | .returned => 0
  | .stopping => 1
  | .starting | .afterReconciliation | .waiting | .deciding _ => 2
  | .reconciling | .trying | .receiving => 3
  | .toReconcile => 4

/-- What costs a step. -/
def Label.cost (l : Label) : Nat := if l.isDriver then 1 else 0

/-- What is about a shutdown is so because it was requested. -/
structure Session.Sound (s : Session) : Prop where
  channel : s.channel = some .control → s.shutdown = true
  signals : s.signals = .sending → s.shutdown = true
  driver : s.driver = .deciding (some .control) ∨ s.driver = .stopping → s.shutdown = true

/-- Each step keeps the flag set behind everything that comes behind it. The control wake, the send
of the signal thread and the decision to stop all come behind the swap of the flag. -/
theorem Session.Sound.step (h : s.Sound) (hl : Step s l t) : t.Sound := by
  obtain ⟨hchannel, hsignals, hdriver⟩ := h
  cases hl with
  | hint =>
    refine ⟨fun hc => ?_, hsignals, hdriver⟩
    cases hch : s.channel with
    | none => simp [Session.trySend, hch] at hc
    | some wake => exact hchannel (by simpa [Session.trySend, hch] using hc)
  | sendControl hsend => exact ⟨fun _ => hsignals hsend, by simp, fun _ => hsignals hsend⟩
  | swapFirst => exact ⟨fun _ => rfl, fun _ => rfl, fun _ => rfl⟩
  | swapAgain => exact ⟨hchannel, hsignals, hdriver⟩
  | tryRecv =>
    refine ⟨by simp [Session.takeWake], hsignals, ?_⟩
    simpa [Session.takeWake] using hchannel
  | recv wake _ hc =>
    refine ⟨by simp [Session.takeWake], hsignals, fun hd => hchannel ?_⟩
    rw [hc]
    simpa [Session.takeWake] using hd
  | loadStarting | loadAfter | loadWaiting =>
    refine ⟨hchannel, hsignals, fun hd => ?_⟩
    show s.shutdown = true
    by_contra hs
    simp [Session.setDriver, hs, Next.driver] at hd
  | loadDeciding wake hd₀ =>
    refine ⟨hchannel, hsignals, fun hd => ?_⟩
    show s.shutdown = true
    by_contra hs
    rcases wake with _ | _ | _
    · simp [Session.setDriver, hs, boundaryNext, Next.driver] at hd
    · simp [Session.setDriver, hs, boundaryNext, Next.driver] at hd
    · exact hs (hdriver (.inl hd₀))
  | endReconciliation written =>
    refine ⟨hchannel, hsignals, ?_⟩
    cases written <;> simp [Session.setDriver]
  | beginReconciliation | stop => exact ⟨hchannel, hsignals, by simp [Session.setDriver]⟩

/-- So does every run, -/
theorem Session.Sound.run (h : s.Sound) (hrun : Trace Step s ls t) : t.Sound :=
  (hrun.forall_of_closed (Q := fun _ => True) h fun _ _ _ hs hl => ⟨hs.step hl, trivial⟩).1

/-- and the start has nothing that could come behind the flag. -/
theorem Session.Sound.start : Session.start.Sound :=
  ⟨by simp [Session.start], by simp [Session.start], by simp [Session.start]⟩

/-- A wake waits, or the driver has taken one. -/
def Session.Woken (s : Session) : Prop := s.channel = some .filesystem ∨ s.driver.Committed

/-- With a wake to take, or taken, each step leads to the reconciliation. The measure falls with
each step of the driver, and the other parties do not raise it. The exceptions are a shutdown and
diagnostics that cannot be written. -/
theorem Step.toBegin (hl : Step s l t) (hsound : s.Sound) (hs : t.shutdown = false)
    (hp : s.Woken) (hbegin : l ≠ .beginReconciliation) (hwritten : l ≠ .endReconciliation false) :
    t.Woken ∧ t.driver.toBegin + l.cost ≤ s.driver.toBegin := by
  simp only [Session.Woken, Driver.Committed] at hp ⊢
  cases hl with
  | hint =>
    refine ⟨?_, Nat.le_refl _⟩
    rcases hp with hc | hd
    · exact .inl (by simp [Session.trySend, hc])
    · exact .inr hd
  | sendControl =>
    refine ⟨?_, Nat.le_refl _⟩
    rcases hp with hc | hd
    · exact .inl (by simp [Session.trySend, hc])
    · exact .inr hd
  | swapFirst => cases hs
  | swapAgain _ hb => cases hb.symm.trans hs
  | beginReconciliation => exact absurd rfl hbegin
  | stop hd => cases (hsound.driver (.inr hd)).symm.trans hs
  | endReconciliation written hd =>
    cases written with
    | false => exact absurd rfl hwritten
    | true =>
      have hc : s.channel = some .filesystem := by simpa [hd] using hp
      exact ⟨.inl hc, by simp [Session.setDriver, Driver.toBegin, Label.cost, Label.isDriver, hd]⟩
  | loadStarting hd | loadAfter hd | loadWaiting hd =>
    have hc : s.channel = some .filesystem := by simpa [hd] using hp
    change s.shutdown = false at hs
    refine ⟨.inl hc, ?_⟩
    simp [Session.setDriver, Driver.toBegin, Label.cost, Label.isDriver, hd, hs, Next.driver]
  | tryRecv hd =>
    have hc : s.channel = some .filesystem := by simpa [hd] using hp
    refine ⟨.inr (.inr (by simp [Session.takeWake, hc])), ?_⟩
    simp [Session.takeWake, Driver.toBegin, Label.cost, Label.isDriver, hd, hc]
  | recv wake hd hw =>
    have hc : s.channel = some .filesystem := by simpa [hd] using hp
    obtain rfl := Option.some.inj (hc.symm.trans hw)
    refine ⟨.inr (.inr rfl), ?_⟩
    simp [Session.takeWake, Driver.toBegin, Label.cost, Label.isDriver, hd]
  | loadDeciding wake hd =>
    change s.shutdown = false at hs
    rcases wake with _ | _ | _
    · have hc : s.channel = some .filesystem := by simpa [hd] using hp
      refine ⟨.inl hc, ?_⟩
      simp [Session.setDriver, Driver.toBegin, Label.cost, Label.isDriver, hd, hs, Next.driver,
        boundaryNext]
    · refine ⟨.inr (.inl ?_), ?_⟩ <;>
        simp [Session.setDriver, Driver.toBegin, Label.cost, Label.isDriver, hd, hs, Next.driver,
          boundaryNext]
    · cases (hsound.driver (.inl hd)).symm.trans hs

/-- Once shutdown is requested each step of the driver leads to its return. The measure falls with
each step of the driver, whatever is in the channel. -/
theorem Step.toReturn (hl : Step s l t) (hs : s.shutdown = true) :
    t.shutdown = true ∧ t.driver.toReturn + l.cost ≤ s.driver.toReturn := by
  cases hl with
  | hint | swapAgain | sendControl => exact ⟨hs, Nat.le_refl _⟩
  | swapFirst _ hb => rw [hb] at hs; cases hs
  | loadStarting hd | loadAfter hd | loadWaiting hd =>
    refine ⟨hs, ?_⟩
    simp [Session.setDriver, Driver.toReturn, Label.cost, Label.isDriver, hd, hs, Next.driver]
  | loadDeciding wake hd =>
    refine ⟨hs, ?_⟩
    simp [Session.setDriver, Driver.toReturn, Label.cost, Label.isDriver, hd, hs, Next.driver,
      boundaryNext]
  | endReconciliation written hd =>
    refine ⟨hs, ?_⟩
    cases written <;> simp [Session.setDriver, Driver.toReturn, Label.cost, Label.isDriver, hd]
  | beginReconciliation hd | tryRecv hd | recv _ hd | stop hd =>
    refine ⟨hs, ?_⟩
    simp [Session.setDriver, Session.takeWake, Driver.toReturn, Label.cost, Label.isDriver, hd]

/-! ## The session does not spin -/

/-- The steps that a driver can take before it needs another wake. It falls with every step of the
driver, and only a wake that is taken can raise it. -/
def Driver.toIdle : Driver → Nat
  | .receiving | .returned => 0
  | .stopping => 1
  | .waiting => 2
  | .deciding none => 3
  | .trying => 4
  | .afterReconciliation => 5
  | .reconciling => 6
  | .toReconcile => 7
  | .deciding _ | .starting => 8

/-- The same, with the wake in the channel. -/
def Session.toIdle (s : Session) : Nat := (if s.channel = none then 0 else 9) + s.driver.toIdle

/-- What gives the driver a wake. -/
def Label.gain (l : Label) : Nat := if l = .hint ∨ l = .sendControl then 9 else 0

/-- A wake pays for the steps that the driver takes for it. -/
theorem Session.trySend_toIdle (s : Session) (wake : Wake) :
    (s.trySend wake).toIdle ≤ s.toIdle + 9 := by
  cases hc : s.channel with
  | none =>
    simp [Session.toIdle, Session.trySend, hc]
    omega
  | some => simp [Session.toIdle, Session.trySend, hc]

/-- Each step of the driver is paid for. A hint and a control wake bring what the driver then
spends, and a full slot brings nothing more. -/
theorem Step.toIdle (hl : Step s l t) : t.toIdle + l.cost ≤ s.toIdle + l.gain := by
  cases hl with
  | hint | sendControl => exact s.trySend_toIdle _
  | swapFirst | swapAgain => exact Nat.le_refl _
  | loadStarting hd | loadAfter hd | loadWaiting hd =>
    cases s.shutdown <;>
      simp [Session.toIdle, Session.setDriver, Label.cost, Label.isDriver, Label.gain, hd,
        Driver.toIdle, Next.driver]
  | loadDeciding wake hd =>
    cases s.shutdown <;> rcases wake with _ | _ | _ <;>
      simp [Session.toIdle, Session.setDriver, Label.cost, Label.isDriver, Label.gain, hd,
        Driver.toIdle, Next.driver, boundaryNext]
  | endReconciliation written hd =>
    cases written <;>
      simp [Session.toIdle, Session.setDriver, Label.cost, Label.isDriver, Label.gain, hd,
        Driver.toIdle]
  | tryRecv hd =>
    cases hc : s.channel <;>
      simp [Session.toIdle, Session.takeWake, Label.cost, Label.isDriver, Label.gain, hd, hc,
        Driver.toIdle]
  | recv wake hd hc =>
    simp [Session.toIdle, Session.takeWake, Label.cost, Label.isDriver, Label.gain, hd, hc,
      Driver.toIdle]
  | beginReconciliation hd | stop hd =>
    simp [Session.toIdle, Session.setDriver, Label.cost, Label.isDriver, Label.gain, hd,
      Driver.toIdle]
    rfl

/-- The wakes of a run are the hints and the signal thread's. -/
theorem sum_map_gain (ls : List Label) :
    (ls.map Label.gain).sum = 9 * (ls.count .hint + ls.count .sendControl) := by
  induction ls with
  | nil => rfl
  | cons l ls ih =>
    rw [List.map_cons, List.sum_cons, ih, List.count_cons, List.count_cons, Label.gain]
    cases l <;> simp <;> omega

/-- The steps of the driver over a run are paid by wakes. -/
theorem steps_of_trace (hrun : Trace Step s ls t) : t.toIdle + ls.countP Label.isDriver ≤
    s.toIdle + 9 * (ls.count .hint + ls.count .sendControl) := by
  have hpaid := (hrun.amortized (P := fun _ => True) trivial fun _ _ _ _ hl =>
    ⟨trivial, hl.toIdle⟩).2
  rwa [sum_map_gain, show Label.cost = fun l => if l.isDriver then 1 else 0 from rfl,
    sum_map_indicator] at hpaid

/-- The wakes that the signal thread can still send. -/
def Session.toSend (s : Session) : Nat := if s.shutdown ∧ s.signals = .waiting then 0 else 1

/-- The signal thread sends one wake. -/
theorem Step.toSend (hl : Step s l t) (hsound : s.Sound) :
    t.toSend + (if l = .sendControl then 1 else 0) ≤ s.toSend := by
  cases hl with
  | sendControl hsend =>
    have hs : s.shutdown = true := hsound.signals hsend
    simp [Session.toSend, Session.trySend, hs, hsend]
  | swapFirst _ hs => simp [Session.toSend, hs]
  | hint | swapAgain | loadStarting | loadAfter | loadWaiting | loadDeciding | endReconciliation
  | tryRecv | recv | beginReconciliation | stop => exact Nat.le_refl _

/-- A session does nothing of its own accord: no more reconciliations begin than hints are
delivered, and one, and the driver takes nine steps at most for a hint. -/
theorem SessionRun.work_le (h : SessionRun ls s) :
    ls.count .beginReconciliation ≤ 1 + ls.count .hint ∧
      ls.countP Label.isDriver ≤ 17 + 9 * ls.count .hint := by
  have hbegun := reconciliations_of_trace h
  have hsteps := steps_of_trace h
  have hsent := h.count_le_budget Session.Sound.start fun _ _ _ hs hl => ⟨hs.step hl, hl.toSend hs⟩
  have hwakes : Session.start.wakes = 1 := rfl
  have hidle : Session.start.toIdle = 8 := rfl
  have hsend : Session.start.toSend = 1 := rfl
  constructor <;> omega

/-- A run with one hint has at most two reconciliations. -/
theorem work_le_during_initial_run :
    let ls : List Label := [.load false, .beginReconciliation, .hint]
    ls.count .beginReconciliation ≤ 1 + ls.count .hint ∧
      ls.countP Label.isDriver ≤ 17 + 9 * ls.count .hint :=
  SessionRun.work_le
    (.cons (.loadStarting _ rfl) (.cons (.beginReconciliation _ rfl) (.cons (.hint _) (.nil _))))

/-! ## Hints and shutdown are served -/

/-- No decision ends the driver at once. -/
theorem Next.driver_ne_returned (n : Next) : n.driver ≠ .returned := by
  cases n <;> simp [Next.driver]

/-- A driver returns for shutdown, or because its diagnostics could not be written. There are two
steps into this state. -/
theorem Step.returned (hl : Step s l t) (hsound : s.Sound) (hd : t.driver = .returned) :
    s.driver = .returned ∨ t.shutdown = true ∨ l = .endReconciliation false := by
  cases hl with
  | hint | swapFirst | swapAgain | sendControl => exact .inl hd
  | stop hstop => exact .inr (.inl (hsound.driver (.inr hstop)))
  | endReconciliation written =>
    cases written with
    | false => exact .inr (.inr rfl)
    | true => cases hd
  | loadStarting | loadDeciding => exact absurd hd (Next.driver_ne_returned _)
  | loadAfter | loadWaiting => cases hs : s.shutdown <;> simp [Session.setDriver, hs] at hd
  | beginReconciliation | tryRecv | recv => cases hd

/-- The flag is never cleared. -/
theorem Step.shutdown (hl : Step s l t) (hs : s.shutdown = true) : t.shutdown = true := by
  cases hl with
  | swapFirst => rfl
  | _ => exact hs

/-- So it stays set in every continuation. -/
theorem shutdown_of_trace (hrun : Trace Step s ls t) (hs : s.shutdown = true) : t.shutdown = true :=
  (hrun.forall_of_closed (Q := fun _ => True) hs fun _ _ _ hs hl => ⟨hl.shutdown hs, trivial⟩).1

/-- A driver whose diagnostics could all be written returns for shutdown only. This is an invariant
of the runs, and `Step.returned` is what a step does to it. -/
theorem SessionRun.of_returned (h : SessionRun ls s) (hd : s.driver = .returned)
    (hwritten : .endReconciliation false ∉ ls) : s.shutdown = true := by
  have hinv : s.Sound ∧ (.endReconciliation false ∉ ls → s.driver = .returned →
      s.shutdown = true) := by
    refine Trace.invariant (P := fun ls s => s.Sound ∧ (.endReconciliation false ∉ ls →
      s.driver = .returned → s.shutdown = true)) h ⟨.start, by simp [Session.start]⟩ ?_
    rintro ls s l t ⟨hsound, hold⟩ hl
    refine ⟨hsound.step hl, fun hno hd => ?_⟩
    rw [List.mem_append, List.mem_singleton, not_or] at hno
    rcases hl.returned hsound hd with hd | hs | rfl
    · exact hl.shutdown (hold hno.1 hd)
    · exact hs
    · exact absurd rfl hno.2
  exact hinv.2 hwritten hd

/-- A step costs one exactly if it is the driver's. -/
theorem Label.cost_eq (l : Label) : l.cost = if l.isDriver then 1 else 0 := rfl

/-- Four steps lead to the next reconciliation at most, -/
theorem Driver.toBegin_le (d : Driver) : d.toBegin ≤ 4 := by
  unfold Driver.toBegin
  split <;> omega

/-- and as many to the return. -/
theorem Driver.toReturn_le (d : Driver) : d.toReturn ≤ 4 := by
  cases d <;> simp [Driver.toReturn]

/-- The driver's way to a reconciliation, over a run. It gets shorter with each step of the driver,
and the others leave it. -/
theorem toBegin_of_trace (hrun : Trace Step s ls t) (hsound : s.Sound) (hs : t.shutdown = false)
    (hp : s.Woken) (hbegin : .beginReconciliation ∉ ls)
    (hwritten : .endReconciliation false ∉ ls) :
    t.Woken ∧ t.driver.toBegin + ls.countP Label.isDriver ≤ s.driver.toBegin := by
  induction hrun with
  | nil => exact ⟨hp, Nat.le_refl _⟩
  | @cons s u t l ls hl hrun ih =>
    rw [List.mem_cons, not_or] at hbegin hwritten
    have hu : u.shutdown = false :=
      Bool.eq_false_iff.2 fun hu => by simp [shutdown_of_trace hrun hu] at hs
    obtain ⟨hwoken, hstep⟩ := hl.toBegin hsound hu hp (Ne.symm hbegin.1) (Ne.symm hwritten.1)
    obtain ⟨ht, hrest⟩ := ih (hsound.step hl) hs hwoken hbegin.2 hwritten.2
    refine ⟨ht, ?_⟩
    rw [List.countP_cons, ← Label.cost_eq]
    omega

/-- The driver's way to its return, over a run. -/
theorem toReturn_of_trace (hrun : Trace Step s ls t) (hs : s.shutdown = true) :
    t.driver.toReturn + ls.countP Label.isDriver ≤ s.driver.toReturn := by
  induction hrun with
  | nil => exact Nat.le_refl _
  | cons hl _ ih =>
    obtain ⟨ht, hstep⟩ := hl.toReturn hs
    have hrest := ih ht
    rw [List.countP_cons, ← Label.cost_eq]
    omega

/-- A hint is served. After a hint the driver takes four steps at most before it begins a
reconciliation, whatever the other parties do, and until then it has a step to take, unless shutdown
is requested or diagnostics cannot be written. -/
theorem SessionRun.hint_served (h : SessionRun ls s) (hp : HintPending ls)
    (hrun : Trace Step s ls' t) (hbegin : .beginReconciliation ∉ ls') (hs : t.shutdown = false)
    (hwritten : .endReconciliation false ∉ ls ++ ls') :
    ls'.countP Label.isDriver ≤ 4 ∧ t.Moves := by
  have hclear : s.shutdown = false :=
    Bool.eq_false_iff.2 fun hset => by simp [shutdown_of_trace hrun hset] at hs
  have hnone : .endReconciliation false ∉ ls' := fun hm => hwritten (List.mem_append_right _ hm)
  obtain ⟨hwoken, hle⟩ := toBegin_of_trace hrun (Session.Sound.start.run h) hs
    (h.inv.pending hp hclear) hbegin hnone
  have hmost := s.driver.toBegin_le
  refine ⟨by omega, ?_⟩
  rcases t.moves_or with hmoves | hd | ⟨hd, hc⟩
  · exact hmoves
  · exact absurd (SessionRun.of_returned (h.append hrun) hd hwritten) (by simp [hs])
  · simp [Session.Woken, Driver.Committed, hd, hc] at hwoken

/-- The signal thread that has requested shutdown is about to send its wake, or has sent it. -/
theorem SessionRun.sending_or_sent (h : SessionRun ls s) (hs : s.shutdown = true) :
    s.signals = .sending ∨ .sendControl ∈ ls := by
  refine Trace.invariant (P := fun ls s => s.shutdown = true → s.signals = .sending ∨
    .sendControl ∈ ls) h (by simp [Session.start]) (fun ls s l t hold hl hs => ?_) hs
  have hkeep : s.shutdown = true → s.signals = .sending ∨ .sendControl ∈ ls ++ [l] :=
    fun hs => (hold hs).imp_right fun hm => List.mem_append_left _ hm
  cases hl with
  | swapFirst => exact .inl rfl
  | sendControl => exact .inr (by simp)
  | _ => exact hkeep hs

/-- Shutdown is served. Once it is requested the driver takes four steps at most; until it has
returned it has a step to take, except that it may wait in `recv` for the wake that the signal
thread is about to send. -/
theorem SessionRun.shutdown_served (h : SessionRun ls s) (hs : s.shutdown = true)
    (hrun : Trace Step s ls' t) : ls'.countP Label.isDriver ≤ 4 ∧
      (t.driver = .returned ∨ t.Moves ∨ t.Blocked ∧ t.signals = .sending) := by
  have hle := toReturn_of_trace hrun hs
  have hmost := s.driver.toReturn_le
  refine ⟨by omega, ?_⟩
  rcases t.moves_or with hmoves | hd | hb
  · exact .inr (.inl hmoves)
  · exact .inl hd
  · have hall : SessionRun (ls ++ ls') t := h.append hrun
    refine .inr (.inr ⟨hb, ?_⟩)
    rcases hall.sending_or_sent (shutdown_of_trace hrun hs) with hsending | hsent
    · exact hsending
    · exact absurd hb.2 ((hall.inv.handled hsent).2 hb.1)

end

/-- A hint in the initial run: the run ends, and the next one is decided upon. The hint that waits
in the channel is taken then. -/
theorem hint_served_after_initial_run :
    let ls' : List Label :=
      [.endReconciliation true, .load false, .tryRecv (some .filesystem), .load false]
    ls'.countP Label.isDriver ≤ 4 ∧ Session.Moves ⟨none, false, .waiting, .toReconcile⟩ :=
  @SessionRun.hint_served [.load false, .beginReconciliation, .hint] _
    ⟨some .filesystem, false, .waiting, .reconciling⟩ _
    (.cons (.loadStarting _ rfl) (.cons (.beginReconciliation _ rfl) (.cons (.hint _) (.nil _))))
    ⟨[.load false, .beginReconciliation], [], rfl, by simp⟩
    (.cons (.endReconciliation _ true rfl) (.cons (.loadAfter _ rfl) (.cons (.tryRecv _ rfl)
      (.cons (.loadDeciding _ (some .filesystem) rfl) (.nil _)))))
    (by simp) rfl (by simp)

/-- A signal that finds the driver in `recv`. A hint is delivered before its own wake, which then
finds the channel full; the driver takes the hint, sees that shutdown was requested, and returns. -/
theorem shutdown_served_in_recv :
    let ls' : List Label := [.hint, .sendControl, .recv .filesystem, .load true, .stop]
    let t : Session := ⟨none, true, .waiting, .returned⟩
    ls'.countP Label.isDriver ≤ 4 ∧
      (t.driver = .returned ∨ t.Moves ∨ t.Blocked ∧ t.signals = .sending) :=
  @SessionRun.shutdown_served _ _ ⟨none, true, .sending, .receiving⟩ _
    (.cons (.loadStarting _ rfl) (.cons (.beginReconciliation _ rfl)
      (.cons (.endReconciliation _ true rfl) (.cons (.loadAfter _ rfl) (.cons (.tryRecv _ rfl)
        (.cons (.loadDeciding _ none rfl) (.cons (.loadWaiting _ rfl)
          (.cons (.swapFirst _ rfl rfl) (.nil _))))))))) rfl
    (.cons (.hint _) (.cons (.sendControl _ rfl) (.cons (.recv _ .filesystem rfl rfl)
      (.cons (.loadDeciding _ (some .filesystem) rfl) (.cons (.stop _ rfl) (.nil _))))))

end Zwirn.Live
