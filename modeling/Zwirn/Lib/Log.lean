import Zwirn.Lib.Outcome

/-!
# Logs of runs

A run over a state with a log can record events (`Run.log`, `Run.tap`). `Emits Q x` says what a run
appends to its log, together with how it ends; `Emits.bind` is the rule for sequences. `Only P F` is
the common case: all events are in `P`, and an event in `F` ends the run.
-/

namespace Lib

namespace Run
variable {σ ε ε' η α β : Type}

/-- A run beside a log that it does not touch. -/
def beside (x : Run σ ε α) : Run (σ × List η) ε α := fun s => ((x s.1).1, ((x s.1).2, s.2))

/-- Appends to the log an event for the outcome of a run. -/
def tap (event : Except ε α → η) (x : Run (σ × List η) ε α) : Run (σ × List η) ε α := fun s =>
  ((x s).1, ((x s).2.1, (x s).2.2 ++ [event (x s).1]))

/-- A run that is one event. -/
def log (event : Except ε α → η) (x : Run σ ε α) : Run (σ × List η) ε α := x.beside.tap event

end Run

section
variable {σ ε ε' η α β : Type} {Q : List η → Except ε α → Prop} {x : Run (σ × List η) ε α}

/-- Every run of `x` appends to its log events that are related to its outcome by `Q`. -/
def Emits (Q : List η → Except ε α → Prop) (x : Run (σ × List η) ε α) : Prop :=
  ∀ s, ∃ es, (x s).2.2 = s.2 ++ es ∧ Q es (x s).1

/-- What is known of the events and of the outcome can be weakened. -/
theorem Emits.mono {Q' : List η → Except ε α → Prop} (h : Emits Q x) (hQ : ∀ es r, Q es r → Q' es r) :
    Emits Q' x := by
  intro s
  obtain ⟨es, hes, hq⟩ := h s
  exact ⟨es, hes, hQ es _ hq⟩

/-- A pure outcome appends no event. -/
theorem Emits.ofExcept (r : Except ε α) (h : Q [] r) : Emits Q (.ofExcept r : Run (σ × List η) ε α) :=
  fun _ => ⟨[], by simp, h⟩

/-- A pure value appends no event. -/
theorem Emits.pure (a : α) (h : Q [] (.ok a)) : Emits Q (pure a : Run (σ × List η) ε α) :=
  Emits.ofExcept _ h

/-- A failure appends no event. -/
theorem Emits.fail (e : ε) (h : Q [] (.error e)) : Emits Q (.fail e : Run (σ × List η) ε α) :=
  Emits.ofExcept _ h

/-- A run that is one event appends this one. -/
theorem Emits.log {y : Run σ ε α} {event : Except ε α → η} (h : ∀ r, Q [event r] r) :
    Emits Q (y.log event) := fun _ => ⟨[event _], rfl, h _⟩

/-- The event for the outcome stands behind those of the run. -/
theorem Emits.tap {event : Except ε α → η} (h : Emits Q x) :
    Emits (fun es r => ∃ es', es = es' ++ [event r] ∧ Q es' r) (x.tap event) := by
  intro s
  obtain ⟨es, hes, hq⟩ := h s
  refine ⟨es ++ [event (x s).1], ?_, es, rfl, hq⟩
  rw [← List.append_assoc, ← hes]
  rfl

/-- Renaming the failure changes what the events are related to, and no event. -/
theorem Emits.mapError {f : ε → ε'} {Q' : List η → Except ε' α → Prop}
    (h : Emits (fun es r => Q' es (Lib.mapError f r)) x) : Emits Q' (x.mapError f) := h

/-- Handing the failure on changes what the events are related to, and no event. -/
theorem Emits.attempt {Q' : List η → Except ε' (Except ε α) → Prop}
    (h : Emits (fun es r => Q' es (.ok r)) x) : Emits Q' (x.attempt : Run _ ε' _) := h

/-- A sequence emits what its first part emits, and behind it, unless that failed, what the second
part emits. -/
theorem Emits.bind {f : α → Run (σ × List η) ε β} {Q' : α → List η → Except ε β → Prop}
    (hx : Emits Q x) (hf : ∀ a, Emits (Q' a) (f a)) :
    Emits (fun es r => (∃ e, r = .error e ∧ Q es (.error e)) ∨
      ∃ a es₁ es₂, es = es₁ ++ es₂ ∧ Q es₁ (.ok a) ∧ Q' a es₂ r) (x >>= f) := by
  intro s
  obtain ⟨es, hes, hq⟩ := hx s
  rw [Run.bind_apply]
  split
  · next a t h =>
    rw [h] at hes hq
    obtain ⟨es', hes', hq'⟩ := hf a t
    exact ⟨es ++ es', by rw [hes', show t.2 = _ from hes, List.append_assoc],
      .inr ⟨a, es, es', rfl, hq, hq'⟩⟩
  · next e t h =>
    rw [h] at hes hq
    exact ⟨es, hes, .inl ⟨e, rfl, hq⟩⟩

/-- All events are in `P`, an event in `F` is the last one, and a run that returns has none. -/
structure Only (P F : η → Prop) (es : List η) (r : Except ε α) : Prop where
  all : ∀ e ∈ es, P e
  last : es.Pairwise fun e _ => ¬ F e
  returned : ∀ a, r = .ok a → ∀ e ∈ es, ¬ F e

section
variable {P F : η → Prop}

/-- No events at all are all in `P`, and none is in `F`. -/
theorem Only.nil (r : Except ε α) : Only P F [] r := ⟨by simp, .nil, by simp⟩

/-- One event in `P`, which may be in `F` only where the run fails. -/
theorem Only.singleton {e : η} {r : Except ε α} (h : P e) (hok : ∀ a, r = .ok a → ¬ F e) :
    Only P F [e] r :=
  ⟨by simpa using h, List.pairwise_singleton _ _, by simpa using hok⟩

/-- Events that do not end a run. -/
theorem Only.of_forall {es : List η} (h : ∀ e ∈ es, P e ∧ ¬ F e) (r : Except ε α) : Only P F es r :=
  ⟨fun e he => (h e he).1, List.pairwise_of_forall_mem_list fun e he _ _ => (h e he).2,
    fun _ _ e he => (h e he).2⟩

/-- Events of a run that has returned, and those of what is run then. None of the first ones is a
failure. -/
theorem Only.append {es es' : List η} {a : α} {r : Except ε β}
    (h : Only P F es (.ok a : Except ε α)) (h' : Only P F es' r) : Only P F (es ++ es') r := by
  have hno := h.returned a rfl
  refine ⟨?_, ?_, ?_⟩
  · intro e he
    rcases List.mem_append.1 he with he | he
    · exact h.all e he
    · exact h'.all e he
  · exact List.pairwise_append.2 ⟨h.last, h'.last, fun e he _ _ => hno e he⟩
  · intro b hb e he
    rcases List.mem_append.1 he with he | he
    · exact hno e he
    · exact h'.returned b hb e he

/-- One more event behind events that do not end a run. -/
theorem Only.concat {es : List η} {e : η} {r : Except ε α} (h : ∀ e ∈ es, P e ∧ ¬ F e) (he : P e)
    (hok : ∀ a, r = .ok a → ¬ F e) : Only P F (es ++ [e]) r :=
  (Only.of_forall h (.ok () : Except ε Unit)).append (.singleton he hok)

/-- Which failure a run has does not matter. -/
theorem Only.error {es : List η} {e : ε} (h : Only P F es (.error e : Except ε α)) (e' : ε') :
    Only P F es (.error e' : Except ε' β) := ⟨h.all, h.last, by simp⟩

/-- What is known of every event can be weakened. -/
theorem Only.mono {P' : η → Prop} {es : List η} {r : Except ε α} (h : Only P F es r)
    (hP : ∀ e, P e → P' e) : Only P' F es r := ⟨fun e he => hP e (h.all e he), h.last, h.returned⟩

/-- A sequence has only the events that its parts have. Since no event in `F` is among those of a
first part that returns, an event in `F` is still the last one. -/
theorem emits_only_bind {f : α → Run (σ × List η) ε β} (hx : Emits (Only P F) x)
    (hf : ∀ a, Emits (Only P F) (f a)) : Emits (Only P F) (x >>= f) := by
  refine (Emits.bind hx hf).mono fun es r h => ?_
  rcases h with ⟨e, rfl, h⟩ | ⟨a, es₁, es₂, rfl, h₁, h₂⟩
  · exact h.error e
  · exact h₁.append h₂

/-- A run whose failure is renamed has the events that it has anyway. -/
theorem emits_only_mapError {f : ε → ε'} (hx : Emits (Only P F) x) :
    Emits (Only P F) (x.mapError f) := by
  refine Emits.mapError (hx.mono fun es r h => ?_)
  cases r with
  | ok a => exact ⟨h.all, h.last, fun _ _ => h.returned a rfl⟩
  | error e => exact h.error (f e)

/-- A failure can be handled where no event ends a run. -/
theorem emits_only_attempt (hF : ∀ e, P e → ¬ F e) (hx : Emits (Only P F) x) :
    Emits (Only P F) (x.attempt : Run _ ε' _) :=
  Emits.attempt (hx.mono fun _ _ h => .of_forall (fun e he => ⟨h.all e he, hF e (h.all e he)⟩) _)

end

end

end Lib
