import Zwirn.Lib.Outcome

/-!
# Runs over a view

What a run does to its state is often known only through a `view` of the state. `Observes view v Q
P` says of a run that, wherever the view is `v`, it leaves the view at `v`, returns what satisfies
`Q` and fails as `P` says. It goes through sequences (`Observes.bind`), and what a run that returns
has seen can be read off it (`Observes.eq_ok`).
-/

namespace Lib.Run

section
variable {σ ν ε ε' α β : Type} {view : σ → ν} {v : ν}

/-- An outcome returns what satisfies `Q`, or fails as `P` says. -/
def Ends (Q : α → Prop) (P : ε → Prop) : Except ε α → Prop
  | .ok a => Q a
  | .error e => P e

/-- Where the view is `v` the run leaves it there, returns in `Q` and fails in `P`. Of what the view
does not show nothing is said. -/
def Observes (view : σ → ν) (v : ν) (Q : α → Prop) (P : ε → Prop) (x : Run σ ε α) : Prop :=
  ∀ s, view s = v → view (x s).2 = v ∧ Ends Q P (x s).1

variable {Q : α → Prop} {P : ε → Prop} {x : Run σ ε α}

/-- What a run observes can be weakened, for its results and for its failures. -/
theorem Observes.mono {Q' : α → Prop} {P' : ε → Prop} (h : Observes view v Q P x)
    (hQ : ∀ a, Q a → Q' a) (hP : ∀ e, P e → P' e) : Observes view v Q' P' x := by
  intro s hs
  obtain ⟨hview, hends⟩ := h s hs
  refine ⟨hview, ?_⟩
  cases hr : (x s).1 with
  | ok a => rw [hr] at hends; exact hQ a hends
  | error e => rw [hr] at hends; exact hP e hends

/-- A pure outcome observes what it is known to be. -/
theorem Observes.ofExcept {r : Except ε α} (h : Ends Q P r) :
    Observes view v Q P (ofExcept r : Run σ ε α) := fun _ hs => ⟨hs, h⟩

/-- A pure value observes what it satisfies. -/
theorem Observes.pure {a : α} (h : Q a) : Observes view v Q P (pure a : Run σ ε α) :=
  Observes.ofExcept h

/-- A failure observes what it satisfies. -/
theorem Observes.fail {e : ε} (h : P e) : Observes view v Q P (fail e : Run σ ε α) :=
  Observes.ofExcept h

/-- A run whose failures are renamed observes what the renaming makes of them. -/
theorem Observes.mapError {P' : ε' → Prop} {f : ε → ε'} (h : Observes view v Q P x)
    (hf : ∀ e, P e → P' (f e)) : Observes view v Q P' (x.mapError f) := by
  intro s hs
  obtain ⟨hview, hends⟩ := h s hs
  refine ⟨hview, ?_⟩
  rw [mapError_apply]
  cases hr : (x s).1 with
  | ok a => rw [hr] at hends; exact hends
  | error e => rw [hr] at hends; exact hf e hends

/-- A run whose failure is handed on returns what it has observed either way. -/
theorem Observes.attempt {P' : ε' → Prop} (h : Observes view v Q P x) :
    Observes view v (Ends Q P) P' (x.attempt : Run σ ε' _) := h

/-- A sequence observes what its parts observe: the view is the same in front of the second part,
which may use what the first one has found. -/
theorem Observes.bind {Q' : β → Prop} {f : α → Run σ ε β} (hx : Observes view v Q P x)
    (hf : ∀ a, Q a → Observes view v Q' P (f a)) : Observes view v Q' P (x >>= f) := by
  intro s hs
  obtain ⟨hview, hends⟩ := hx s hs
  rw [bind_apply]
  split
  · next a t h =>
    rw [h] at hview hends
    exact hf a hends t hview
  · next e t h =>
    rw [h] at hview hends
    exact ⟨hview, hends⟩

/-- What a run that returns has seen, and that it has left the view. -/
theorem Observes.eq_ok (h : Observes view v Q P x) {s t : σ} {a : α} (hs : view s = v)
    (hrun : x s = (.ok a, t)) : view t = v ∧ Q a := by
  have hx := h s hs
  rw [hrun] at hx
  exact hx

/-- What a run that fails has seen, and that it has left the view. -/
theorem Observes.eq_error (h : Observes view v Q P x) {s t : σ} {e : ε} (hs : view s = v)
    (hrun : x s = (.error e, t)) : view t = v ∧ P e := by
  have hx := h s hs
  rw [hrun] at hx
  exact hx

end

end Lib.Run
