import Zwirn.Lib.Outcome

/-!
# Objects in custody

A program that holds objects of its environment may use each only as the object's protocol allows.
The protocol is a partial function `use` from a call and the objects to the objects behind the call,
and a call it does not allow is a misuse, which fails the run. A call that can fail is answered by
the environment, with any sequence of answers. `Run.Yields` says of a run that it returns without a
misuse, and goes through sequences (`Run.Yields.bind`).
-/

namespace Lib

namespace Run
variable {σ ε α β : Type}

/-- From a state in `P` the run returns, with a value and a state in `Q`. Unlike a triple about
partial correctness it says that there is no failure. -/
def Yields (P : σ → Prop) (x : Run σ ε α) (Q : α → σ → Prop) : Prop :=
  ∀ s, P s → ∃ a t, x s = (.ok a, t) ∧ Q a t

variable {P P' : σ → Prop} {Q Q' : α → σ → Prop} {x : Run σ ε α}

/-- What a run yields can be weakened. -/
theorem Yields.mono (h : Yields P x Q) (hQ : ∀ a t, Q a t → Q' a t) : Yields P x Q' := by
  intro s hs
  obtain ⟨a, t, hx, hq⟩ := h s hs
  exact ⟨a, t, hx, hQ a t hq⟩

/-- A pure value yields what is known of it in the state in which it is returned. -/
theorem Yields.pure {a : α} (h : ∀ s, P s → Q a s) : Yields P (pure a : Run σ ε α) Q :=
  fun s hs => ⟨a, s, rfl, h s hs⟩

/-- A sequence yields what its second part does from what the first one has yielded. -/
theorem Yields.bind {R : β → σ → Prop} {f : α → Run σ ε β} (hx : Yields P x Q)
    (hf : ∀ a, Yields (Q a) (f a) R) : Yields P (x >>= f) R := by
  intro s hs
  obtain ⟨a, t, hx, hq⟩ := hx s hs
  obtain ⟨b, u, hf, hr⟩ := hf a t hq
  exact ⟨b, u, by rw [Run.bind_of_ok hx, hf], hr⟩

end Run

/-- The state of a program that holds objects: the objects, the number of answers that the
environment has given, and the calls that have failed, the first one in front. No call looks at the
list of failures, which is only there for statements about a run. -/
structure Custody (ω κ : Type) where
  objects : ω
  answers : Nat
  failed : List κ

namespace Custody
variable {ω κ : Type} {use : κ → ω → Option ω} {answer : Nat → Bool} {call : κ} {o o' : ω}
  {failed : List κ}

/-- Exactly these objects are held, and exactly these calls have failed. -/
def Holds (o : ω) (failed : List κ) (s : Custody ω κ) : Prop := s.objects = o ∧ s.failed = failed

/-- A call that does not fail. A call that the protocol does not allow is a misuse, which fails the
run. -/
def perform (use : κ → ω → Option ω) (call : κ) : Run (Custody ω κ) κ Unit := fun s =>
  match use call s.objects with
  | some o => (.ok (), { s with objects := o })
  | none => (.error call, s)

/-- The next answer of the environment, to a question that is no call. -/
def ask (answer : Nat → Bool) : Run (Custody ω κ) κ Bool := fun s =>
  (.ok (answer s.answers), { s with answers := s.answers + 1 })

/-- Notes whether a call has failed. -/
def note (call : κ) (succeeds : Bool) : Run (Custody ω κ) κ Unit := fun s =>
  (.ok (), { s with failed := s.failed ++ if succeeds then [] else [call] })

/-- A call that does nothing if it fails. Its failure is noted. -/
def attempt (use : κ → ω → Option ω) (answer : Nat → Bool) (call : κ) :
    Run (Custody ω κ) κ Bool := do
  let succeeds ← ask answer
  note call succeeds
  if succeeds then
    perform use call
  pure succeeds

/-- A call that the protocol allows leaves the objects that the protocol gives for it. -/
theorem perform_yields (h : use call o = some o') :
    Run.Yields (Holds o failed) (perform use call) fun _ => Holds o' failed := by
  rintro s ⟨hs, hfailed⟩
  refine ⟨(), { s with objects := o' }, ?_, rfl, hfailed⟩
  rw [perform, hs, h]

/-- A question changes nothing that is held. -/
theorem ask_yields : Run.Yields (Holds o failed) (ask answer : Run (Custody ω κ) κ Bool)
    fun _ => Holds o failed :=
  fun s hs => ⟨answer s.answers, _, rfl, hs⟩

/-- A failure is noted behind the failures before it. -/
theorem note_yields (call : κ) (succeeds : Bool) :
    Run.Yields (Holds o failed) (note call succeeds : Run (Custody ω κ) κ Unit) fun _ =>
      Holds o (failed ++ if succeeds then [] else [call]) :=
  fun _ hs => ⟨(), _, rfl, hs.1, by rw [hs.2]⟩

/-- An attempt succeeds as the protocol has it, or it changes nothing and is noted as a failure. -/
theorem attempt_yields (h : use call o = some o') :
    Run.Yields (Holds o failed) (attempt use answer call) fun succeeds =>
      if succeeds then Holds o' failed else Holds o (failed ++ [call]) := by
  refine ask_yields.bind fun succeeds => (note_yields call succeeds).bind fun _ => ?_
  cases succeeds with
  | false => exact .pure fun _ hs => hs
  | true =>
    refine (perform_yields h).bind fun _ => .pure fun _ hs => ?_
    rwa [if_pos rfl, List.append_nil] at hs

end Custody

end Lib
