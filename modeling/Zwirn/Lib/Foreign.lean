import Mathlib

/-!
# Foreign calls that call back

A `Foreign` call goes on in a system with state `σ` until it finishes with an outcome. On its way it
may call back, any number of times, and how it goes on depends on the state that the callback
leaves. Where callbacks leave the system alone the call ends in its `final` state
(`Foreign.run_inert`), and up to the first callback that does not, the call goes its own way
(`Foreign.run_firstCall`).
-/

namespace Lib

/-- A foreign call. -/
inductive Foreign (σ ι ρ : Type)
  | finish (state : σ) (outcome : ρ)
  | call (state : σ) (arg : ι) (next : σ → Foreign σ ι ρ)

namespace Foreign

section
variable {σ ι ρ β : Type}

/-- Answers each callback with a handler, which has a state of its own. -/
def run (handler : ι → β → σ → β × σ) : Foreign σ ι ρ → β → β × σ × ρ
  | .finish s outcome, b => (b, s, outcome)
  | .call s arg next, b => (next (handler arg b s).2).run handler (handler arg b s).1

/-- The state in which the call ends if no callback does anything. -/
def final : Foreign σ ι ρ → σ
  | .finish s _ => s
  | .call s _ next => (next s).final

/-- The first callback with an argument in `p`, if those before it do nothing. -/
def firstCall (p : ι → Prop) [DecidablePred p] :
    Foreign σ ι ρ → Option (σ × ι × (σ → Foreign σ ι ρ))
  | .finish _ _ => none
  | .call s arg next => if p arg then some (s, arg, next) else (next s).firstCall p

/-- The call itself does nothing behind a callback. -/
def Still : Foreign σ ι ρ → Prop
  | .finish _ _ => True
  | .call _ _ next => ∀ t, (next t).final = t ∧ (next t).Still

variable {γ : Type} {handler : ι → β → σ → β × σ} {P : β → Prop} {p : ι → Prop} [DecidablePred p]

/-- A handler that does nothing keeps what holds of its own state, and the call ends as it does by
itself. The induction is on the call. -/
theorem run_inert (h : ∀ arg b s, P b → P (handler arg b s).1 ∧ (handler arg b s).2 = s)
    (t : Foreign σ ι ρ) {b : β} (hb : P b) :
    P (t.run handler b).1 ∧ (t.run handler b).2.1 = t.final := by
  induction t generalizing b with
  | finish => exact ⟨hb, rfl⟩
  | call s arg next ih =>
    obtain ⟨hb', hs⟩ := h arg b s hb
    rw [run, final, hs]
    exact ih s hb'

/-- A call without a callback in `p` goes as it does with a handler that only takes notes. The
handler leaves the state alone at the other calls. -/
theorem run_of_firstCall_eq_none {R : β → γ → Prop} {note : ι → γ → γ}
    (h : ∀ arg b c s, R b c → ¬ p arg → R (handler arg b s).1 (note arg c) ∧ (handler arg b s).2 = s)
    {t : Foreign σ ι ρ} (ht : t.firstCall p = none) {b : β} {c : γ} (hb : R b c) :
    R (t.run handler b).1 (t.run (fun arg c s => (note arg c, s)) c).1 ∧
      (t.run handler b).2 = (t.run (fun arg c s => (note arg c, s)) c).2 := by
  induction t generalizing b c with
  | finish => exact ⟨hb, rfl⟩
  | call s arg next ih =>
    rw [firstCall] at ht
    split at ht
    · cases ht
    · next hp =>
      obtain ⟨hb', hs⟩ := h arg b c s hb hp
      rw [run, run, hs]
      exact ih s ht hb'

/-- Up to the first callback in `p` nothing is done. The induction is on what the foreign code does,
and callbacks outside `p` are answered without a change. -/
theorem run_firstCall
    (h : ∀ arg b s, P b → ¬ p arg → P (handler arg b s).1 ∧ (handler arg b s).2 = s)
    {t : Foreign σ ι ρ} {u : σ} {arg : ι} {next : σ → Foreign σ ι ρ}
    (ht : t.firstCall p = some (u, arg, next)) {b : β} (hb : P b) :
    ∃ b', P b' ∧ p arg ∧
      t.run handler b = (next (handler arg b' u).2).run handler (handler arg b' u).1 := by
  induction t generalizing b with
  | finish => cases ht
  | call s arg' next' ih =>
    rw [firstCall] at ht
    split at ht
    · next hp =>
      cases ht
      exact ⟨b, hb, hp, rfl⟩
    · next hp =>
      obtain ⟨hb', hs⟩ := h arg' b s hb hp
      rw [run, hs]
      exact ih s ht hb'

/-- A call that does nothing behind a callback ends in the state in which that callback has left
it. -/
theorem Still.final_next {t : Foreign σ ι ρ} (h : t.Still) {u : σ} {arg : ι}
    {next : σ → Foreign σ ι ρ} (ht : t.firstCall p = some (u, arg, next)) (v : σ) :
    (next v).final = v := by
  induction t with
  | finish => cases ht
  | call s arg' next' ih =>
    rw [firstCall] at ht
    split at ht
    · cases ht
      exact (h v).1
    · exact ih s (h s).2 ht

end

end Foreign

end Lib
