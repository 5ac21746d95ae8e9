import Zwirn.Lib.Log

/-!
# Runs along a map of states

A run over one kind of state can stand for a run over another one: `Run.Along f x y` says that `y`
does at `f s` what `x` does at `s`. The relation is closed under everything runs are built with, so
it carries over from the operations of a system to whole programs. Two maps are of use: the one that
forgets a log (`Along.log`, `Along.tap`), and the inclusion of the states that satisfy an invariant
(`restrict_along`).
-/

namespace Lib

namespace Run
variable {σ τ ε ε' η α β : Type}

/-- The run `y` does at `f s` what `x` does at `s`: it ends in the same way, in the image of the
state that `x` leaves. -/
def Along (f : σ → τ) (x : Run σ ε α) (y : Run τ ε α) : Prop :=
  ∀ s, y (f s) = ((x s).1, f (x s).2)

namespace Along
variable {f : σ → τ} {x : Run σ ε α} {y : Run τ ε α}

/-- What is known of a run of `x` holds of the run of `y` from the image of the state. -/
theorem eq (h : Along f x y) {s t : σ} {r : Except ε α} (hrun : x s = (r, t)) :
    y (f s) = (r, f t) := by
  rw [h s, hrun]

/-- A pure value is returned on both sides, and leaves both states. -/
theorem pure (a : α) : Along f (pure a : Run σ ε α) (Pure.pure a) := fun _ => rfl

/-- A failure is the same on both sides, and leaves both states. -/
theorem fail (e : ε) : Along f (fail e : Run σ ε α) (.fail e) := fun _ => rfl

/-- A pure outcome is the same on both sides. -/
theorem ofExcept (r : Except ε α) : Along f (ofExcept r : Run σ ε α) (.ofExcept r) := fun _ => rfl

/-- Failures are renamed alike on both sides. -/
theorem mapError (h : Along f x y) (g : ε → ε') : Along f (x.mapError g) (y.mapError g) := by
  intro s
  rw [mapError_apply, h s]
  rfl

/-- Failures are handed on alike on both sides. -/
theorem attempt (h : Along f x y) : Along f (x.attempt : Run σ ε' _) y.attempt := by
  intro s
  rw [attempt_apply, h s]
  rfl

/-- A sequence is along the map if its parts are: the second part starts from the image of the state
that the first one left. -/
theorem bind (h : Along f x y) {g : α → Run σ ε β} {g' : α → Run τ ε β}
    (hg : ∀ a, Along f (g a) (g' a)) : Along f (x >>= g) (y >>= g') := by
  intro s
  rw [bind_apply, bind_apply, h s]
  cases hx : x s with
  | mk r t =>
    cases r with
    | ok a => exact hg a t
    | error e => rfl

end Along

/-! ## Forgetting a log -/

section
variable {x : Run (σ × List η) ε α} {y : Run σ ε α}

/-- Without the log, a recorded run is the run itself. -/
theorem Along.log (y : Run σ ε α) (event : Except ε α → η) : Along Prod.fst (y.log event) y :=
  fun _ => rfl

/-- One more event makes no difference without the log. -/
theorem Along.tap (h : Along Prod.fst x y) (event : Except ε α → η) :
    Along Prod.fst (x.tap event) y := h

end

/-! ## Invariants -/

/-- A run that keeps an invariant, over the states that satisfy it. The state that it leaves comes
with the proof that it satisfies the invariant. -/
def restrict {P : σ → Prop} (x : Run σ ε α) (h : ∀ s, P s → P (x s).2) : Run {s // P s} ε α :=
  fun s => ((x s).1, ⟨(x s).2, h s s.2⟩)

/-- Over the states that satisfy an invariant a run does what it does anyway. -/
theorem restrict_along {P : σ → Prop} (x : Run σ ε α) (h : ∀ s, P s → P (x s).2) :
    Along Subtype.val (x.restrict h) x := fun _ => rfl

end Run

end Lib
