import Mathlib

/-!
# Failing computations and their inversion

The reading rules of `Except`: a sequence succeeds when its parts do (`Except.bind_eq_ok`), a check
succeeds when its condition holds (`require_eq_ok`), an option succeeds when it has a value
(`okOr_eq_ok`), and a left fold of a failing step succeeds along a chain of states
(`foldlM_append_eq_ok`). `FailsIn` bounds how an outcome fails, with a rule for each of them. `Run`
is the same over a state that is kept on failure as well, with the relation a run moves its state
along (`Moves`).
-/

namespace Lib

/-! ## Pure outcomes -/

section
variable {ε ε' α β : Type}

/-- Fails with `e` unless the condition holds. The checks of a program are written with it, so that
a program that returns has passed each of them. -/
def require (c : Prop) [Decidable c] (e : ε) : Except ε Unit :=
  if c then .ok () else .error e

/-- The value of an option, or the failure `e` if there is none: what `Option::ok_or` does. -/
def okOr (o : Option α) (e : ε) : Except ε α :=
  match o with
  | some a => .ok a
  | none => .error e

/-- A check returns exactly if its condition holds. It returns nothing, so `u` is not
constrained. -/
@[simp] theorem require_eq_ok {c : Prop} [Decidable c] {e : ε} {u : Unit} :
    require c e = .ok u ↔ c := by
  unfold require; split <;> simp_all

/-- A check whose condition is known passes, whatever it would have failed with. -/
theorem require_of {c : Prop} [Decidable c] (h : c) (e : ε) : require c e = .ok () :=
  require_eq_ok.2 h

/-- An option that has to have a value gives the value that it has. -/
@[simp] theorem okOr_eq_ok {o : Option α} {e : ε} {a : α} : okOr o e = .ok a ↔ o = some a := by
  cases o <;> simp [okOr]

/-- A sequence succeeds exactly if its first part does, and its second part does on the value of the
first. Programs in `do` notation are taken apart with it, one step after the other. -/
@[simp] theorem Except.bind_eq_ok {x : Except ε α} {f : α → Except ε β} {b : β} :
    (x >>= f) = .ok b ↔ ∃ a, x = .ok a ∧ f a = .ok b := by
  cases x <;> simp [bind, Except.bind]

/-- A sequence fails exactly if its first part does with this error, or its second part does on the
value of the first. -/
theorem Except.bind_eq_error {x : Except ε α} {f : α → Except ε β} {e : ε} :
    (x >>= f) = .error e ↔ x = .error e ∨ ∃ a, x = .ok a ∧ f a = .error e := by
  cases x <;> simp [bind, Except.bind]

/-- A pure value is the one that is returned. -/
@[simp] theorem Except.pure_eq_ok {a b : α} : (pure a : Except ε α) = .ok b ↔ a = b := by
  simp [pure, Except.pure]

/-- Renames the failure of an outcome. -/
def mapError (f : ε → ε') : Except ε α → Except ε' α
  | .ok a => .ok a
  | .error e => .error (f e)

/-- Renaming the failure changes nothing for an outcome that is a success. -/
@[simp] theorem mapError_eq_ok {f : ε → ε'} {x : Except ε α} {a : α} :
    mapError f x = .ok a ↔ x = .ok a := by
  cases x <;> simp [mapError]

/-- A fold over an appended list succeeds exactly through the state that the fold over the first
part has left. Loops are taken apart with it at any of their rounds. -/
theorem foldlM_append_eq_ok {f : β → α → Except ε β} {xs ys : List α} {s t : β} :
    (xs ++ ys).foldlM f s = .ok t ↔ ∃ u, xs.foldlM f s = .ok u ∧ ys.foldlM f u = .ok t := by
  rw [List.foldlM_append, Except.bind_eq_ok]

/-- A loop of checks succeeds exactly if each of them does, in whatever order they are made. -/
theorem forM_eq_ok {f : α → Except ε Unit} {xs : List α} {u : Unit} :
    forM xs f = .ok u ↔ ∀ x ∈ xs, f x = .ok () := by
  induction xs with
  | nil => simp
  | cons x xs ih =>
    rw [List.forM_cons, Except.bind_eq_ok, List.forall_mem_cons, ← ih]
    exact ⟨fun h => h.choose_spec, fun h => ⟨(), h⟩⟩

/-- A failing loop of checks fails as one of them does, which is the first one that fails. -/
theorem forM_eq_error {f : α → Except ε Unit} {xs : List α} {e : ε}
    (h : forM xs f = .error e) : ∃ x ∈ xs, f x = .error e := by
  induction xs with
  | nil => cases h
  | cons x xs ih =>
    rw [List.forM_cons, Except.bind_eq_error] at h
    rcases h with h | ⟨_, _, h⟩
    · exact ⟨x, by simp, h⟩
    · obtain ⟨y, hy, hfail⟩ := ih h
      exact ⟨y, List.mem_cons_of_mem _ hy, hfail⟩

/-- A map over a list succeeds exactly with the results of its elements, one for each and in their
order. -/
theorem mapM_eq_ok {f : α → Except ε β} {xs : List α} {ys : List β} :
    xs.mapM f = .ok ys ↔ List.Forall₂ (fun x y => f x = .ok y) xs ys := by
  induction xs generalizing ys with
  | nil =>
    rw [List.mapM_nil, Except.pure_eq_ok, List.forall₂_nil_left_iff]
    exact eq_comm
  | cons x xs ih =>
    simp only [List.mapM_cons, Except.bind_eq_ok, Except.pure_eq_ok, ih]
    refine ⟨fun h => ?_, fun h => ?_⟩
    · obtain ⟨y, hy, ys, hys, rfl⟩ := h
      exact .cons hy hys
    · cases h with
      | cons hy hys => exact ⟨_, hy, _, hys, rfl⟩

end

/-! ## Failures -/

section
variable {ε ε' α β : Type} {P : ε → Prop}

/-- Every failure of an outcome satisfies `P`. Nothing is said of an outcome that is a success. -/
def FailsIn (P : ε → Prop) (x : Except ε α) : Prop := ∀ e, x = .error e → P e

namespace FailsIn

/-- A success has no failure. -/
theorem ok (a : α) : FailsIn P (.ok a : Except ε α) := by
  intro e h
  cases h

/-- The failure of an outcome that fails. -/
theorem error {e : ε} (he : P e) : FailsIn P (.error e : Except ε α) := by
  intro e' h
  cases h
  exact he

/-- The failures of a sequence are those of its first part, and those of its second part on a value
that the first one has returned. -/
theorem bind {x : Except ε α} {f : α → Except ε β} (hx : FailsIn P x)
    (hf : ∀ a, x = .ok a → FailsIn P (f a)) : FailsIn P (x >>= f) := by
  intro e h
  rcases Except.bind_eq_error.1 h with h | ⟨a, ha, h⟩
  · exact hx e h
  · exact hf a ha e h

/-- A check fails only with its own error. -/
theorem require {e : ε} (he : P e) (c : Prop) [Decidable c] : FailsIn P (require c e) := by
  unfold Lib.require
  split
  · exact .ok _
  · exact .error he

/-- An option that has to have a value fails only with the error that is named for this. -/
theorem okOr {e : ε} (he : P e) (o : Option α) : FailsIn P (okOr o e) := by
  cases o with
  | some a => exact .ok a
  | none => exact .error he

/-- Failures that are renamed satisfy what the renaming makes of them. -/
theorem mapError {Q : ε' → Prop} {f : ε → ε'} {x : Except ε α} (hx : FailsIn P x)
    (hf : ∀ e, P e → Q (f e)) : FailsIn Q (mapError f x) := by
  intro e h
  cases x with
  | ok a => cases h
  | error e => cases h; exact hf e (hx e rfl)

/-- The failures of an outcome that is renamed whatever it is. -/
theorem mapError_of {Q : ε' → Prop} {f : ε → ε'} (hf : ∀ e, Q (f e)) (x : Except ε α) :
    FailsIn Q (Lib.mapError f x) := mapError (P := fun _ => True) (fun _ _ => trivial) fun e _ => hf e

/-- The failures of a loop of checks are those of the checks. -/
theorem forM {f : α → Except ε Unit} {xs : List α} (hf : ∀ a ∈ xs, FailsIn P (f a)) :
    FailsIn P (forM xs f) := by
  intro e h
  obtain ⟨a, ha, h⟩ := forM_eq_error h
  exact hf a ha e h

/-- The failures of a fold are those of its rounds, whatever state they start from. -/
theorem foldlM {f : β → α → Except ε β} {xs : List α} (hf : ∀ b, ∀ a ∈ xs, FailsIn P (f b a))
    (b : β) : FailsIn P (xs.foldlM f b) := by
  induction xs generalizing b with
  | nil => exact .ok b
  | cons x xs ih =>
    refine (hf b x List.mem_cons_self).bind fun b' _ => ih (fun b a ha => ?_) b'
    exact hf b a (List.mem_cons_of_mem _ ha)

end FailsIn

end

/-! ## Aligned lists -/

section
variable {α β : Type} {R : α → β → Prop} {xs : List α} {ys : List β}

/-- An element on the left has a partner on the right. -/
theorem exists_right_of_forall₂ (h : List.Forall₂ R xs ys) {x : α} (hx : x ∈ xs) :
    ∃ y ∈ ys, R x y := by
  induction h with
  | nil => cases hx
  | @cons a b _ _ hab _ ih =>
    rcases List.mem_cons.1 hx with rfl | hx
    · exact ⟨b, by simp, hab⟩
    · obtain ⟨y, hy, hxy⟩ := ih hx
      exact ⟨y, List.mem_cons_of_mem _ hy, hxy⟩

/-- An element on the right has a partner on the left. -/
theorem exists_left_of_forall₂ (h : List.Forall₂ R xs ys) {y : β} (hy : y ∈ ys) :
    ∃ x ∈ xs, R x y := exists_right_of_forall₂ h.flip hy

/-- Elements that each have a partner make up an aligned list. -/
theorem exists_forall₂_of_forall_exists {S : α → β → Prop} (h : ∀ x ∈ xs, ∃ y ∈ ys, S x y) :
    ∃ zs, List.Forall₂ (fun x z => z ∈ ys ∧ S x z) xs zs := by
  induction xs with
  | nil => exact ⟨[], .nil⟩
  | cons x xs ih =>
    obtain ⟨⟨y, hy⟩, hxs⟩ := List.forall_mem_cons.1 h
    obtain ⟨zs, hzs⟩ := ih hxs
    exact ⟨y :: zs, .cons hy hzs⟩

/-- A relation of aligned elements, from what is known of those on the right. -/
theorem forall₂_of_mem_right {S : α → β → Prop} (h : List.Forall₂ R xs ys)
    (hS : ∀ x, ∀ y ∈ ys, R x y → S x y) : List.Forall₂ S xs ys := by
  induction h with
  | nil => exact .nil
  | cons hab _ ih =>
    exact .cons (hS _ _ List.mem_cons_self hab)
      (ih fun x y hy => hS x y (List.mem_cons_of_mem _ hy))

/-- Aligned lists have the same images under functions that agree on aligned elements. -/
theorem map_eq_of_forall₂ {γ : Type} {f : α → γ} {g : β → γ} (h : List.Forall₂ R xs ys)
    (hfg : ∀ a b, R a b → f a = g b) : xs.map f = ys.map g := by
  rw [← List.forall₂_eq_eq_eq, List.forall₂_map_left_iff, List.forall₂_map_right_iff]
  exact h.imp hfg

/-- Lists that are aligned in two ways are aligned in both. -/
theorem forall₂_and {S : α → β → Prop} (h : List.Forall₂ R xs ys) (h' : List.Forall₂ S xs ys) :
    List.Forall₂ (fun a b => R a b ∧ S a b) xs ys := by
  induction h with
  | nil => exact .nil
  | cons hab _ ih =>
    cases h' with
    | cons hab' h' => exact .cons ⟨hab, hab'⟩ (ih h')

/-- Lists aligned with one list are aligned with each other. -/
theorem forall₂_trans {γ : Type} {S : β → γ → Prop} {T : α → γ → Prop} {zs : List γ}
    (hT : ∀ a b c, R a b → S b c → T a c) (h : List.Forall₂ R xs ys) (h' : List.Forall₂ S ys zs) :
    List.Forall₂ T xs zs := by
  induction h generalizing zs with
  | nil =>
    cases h'
    exact .nil
  | cons hab _ ih =>
    cases h' with
    | cons hbc h' => exact .cons (hT _ _ _ hab hbc) (ih h')

/-- Sorting keeps lists aligned when aligned elements are ordered alike. Each insertion puts aligned
elements at the same place. -/
theorem forall₂_insertionSort {r : α → α → Prop} [DecidableRel r] {r' : β → β → Prop}
    [DecidableRel r'] (hr : ∀ a b a' b', R a a' → R b b' → (r a b ↔ r' a' b'))
    (h : List.Forall₂ R xs ys) : List.Forall₂ R (xs.insertionSort r) (ys.insertionSort r') := by
  have hinsert : ∀ {a : α} {b : β} {xs : List α} {ys : List β}, R a b → List.Forall₂ R xs ys →
      List.Forall₂ R (xs.orderedInsert r a) (ys.orderedInsert r' b) := by
    intro a b xs ys hab h
    induction h with
    | nil => exact .cons hab .nil
    | @cons x y xs ys hxy h ih =>
      by_cases hle : r a x
      · rw [List.orderedInsert_cons_of_le _ _ hle,
          List.orderedInsert_cons_of_le _ _ ((hr _ _ _ _ hab hxy).1 hle)]
        exact .cons hab (.cons hxy h)
      · rw [List.orderedInsert_of_not_le _ _ hle,
          List.orderedInsert_of_not_le _ _ (fun hle' => hle ((hr _ _ _ _ hab hxy).2 hle'))]
        exact .cons hxy ih
  induction h with
  | nil => exact .nil
  | cons hab _ ih => exact hinsert hab ih

/-- A relation between the elements of a list and their images. -/
theorem forall₂_map_right_of {f : α → β} (h : ∀ x ∈ xs, R x (f x)) :
    List.Forall₂ R xs (xs.map f) := by
  rw [List.forall₂_map_right_iff, List.forall₂_same]
  exact h

end

/-- A value that is the caller's own, or a new one. -/
inductive Cow (α : Type)
  | borrowed (value : α)
  | owned (value : α)
deriving DecidableEq, Repr

/-- The value, whosever it is. -/
def Cow.value {α : Type} : Cow α → α
  | .borrowed value => value
  | .owned value => value

/-! ## Outcomes over a state -/

/-- A computation that returns or fails, and leaves a state either way. -/
def Run (σ ε α : Type) := σ → Except ε α × σ

namespace Run
variable {σ ε ε' α β : Type}

instance : Monad (Run σ ε) where
  pure a := fun s => (.ok a, s)
  bind x f := fun s =>
    match x s with
    | (.ok a, s') => f a s'
    | (.error e, s') => (.error e, s')

/-- Fails in the state it is run in. -/
def fail (e : ε) : Run σ ε α := fun s => (.error e, s)

/-- A pure outcome as a run that leaves the state alone. -/
def ofExcept (x : Except ε α) : Run σ ε α := fun s => (x, s)

/-- Renames the failure of a run. -/
def mapError (f : ε → ε') (x : Run σ ε α) : Run σ ε' α := fun s => (Lib.mapError f (x s).1, (x s).2)

/-- A run whose failure is handed to the caller as a value. -/
def attempt (x : Run σ ε α) : Run σ ε' (Except ε α) := fun s => (.ok (x s).1, (x s).2)

/-- A pure value is returned in the state in which the run was started. -/
@[simp] theorem pure_apply (a : α) (s : σ) : (pure a : Run σ ε α) s = (.ok a, s) := rfl
/-- A failure leaves the state in which the run was started. -/
@[simp] theorem fail_apply (e : ε) (s : σ) : (fail e : Run σ ε α) s = (.error e, s) := rfl
/-- A pure outcome leaves the state in which the run was started. -/
@[simp] theorem ofExcept_apply (x : Except ε α) (s : σ) : (ofExcept x : Run σ ε α) s = (x, s) := rfl
/-- A run whose failure is handed on always returns, in the state that the run has left. -/
@[simp] theorem attempt_apply (x : Run σ ε α) (s : σ) :
    (attempt x : Run σ ε' (Except ε α)) s = (.ok (x s).1, (x s).2) := rfl
/-- Renaming the failure does not change the state that a run leaves. -/
@[simp] theorem mapError_apply (f : ε → ε') (x : Run σ ε α) (s : σ) :
    mapError f x s = (Lib.mapError f (x s).1, (x s).2) := rfl

/-- What is handed on of a run that is known. -/
theorem attempt_of {x : Run σ ε α} {s t : σ} {r : Except ε α} (h : x s = (r, t)) :
    (x.attempt : Run σ ε' _) s = (.ok r, t) := by
  rw [attempt_apply, h]

/-- Renaming the failure changes nothing for a run that returns. -/
theorem mapError_eq_ok {f : ε → ε'} {x : Run σ ε α} {s t : σ} {a : α} :
    x.mapError f s = (.ok a, t) ↔ x s = (.ok a, t) := by
  simp [Prod.ext_iff]

/-- How a sequence runs: the second part starts in the state that the first one has left, and does
not start if that has failed. -/
theorem bind_apply (x : Run σ ε α) (f : α → Run σ ε β) (s : σ) :
    (x >>= f) s = match x s with
      | (.ok a, s') => f a s'
      | (.error e, s') => (.error e, s') := rfl

/-- A sequence of runs returns when both parts do, the second from the state the first left. -/
theorem bind_eq_ok {x : Run σ ε α} {f : α → Run σ ε β} {s s' : σ} {b : β} :
    (x >>= f) s = (.ok b, s') ↔ ∃ a t, x s = (.ok a, t) ∧ f a t = (.ok b, s') := by
  rw [bind_apply]
  split
  · next a t h => simp [h]
  · next e t h => simp [h]

/-- A sequence of runs fails when the first part does, or the second from the state it left. -/
theorem bind_eq_error {x : Run σ ε α} {f : α → Run σ ε β} {s s' : σ} {e : ε} :
    (x >>= f) s = (.error e, s') ↔
      x s = (.error e, s') ∨ ∃ a t, x s = (.ok a, t) ∧ f a t = (.error e, s') := by
  rw [bind_apply]
  split
  · next a t h => simp [h]
  · next e t h => simp [h]

/-- A sequence whose first part is known to return goes on with the second. -/
theorem bind_of_ok {x : Run σ ε α} {f : α → Run σ ε β} {s t : σ} {a : α} (h : x s = (.ok a, t)) :
    (x >>= f) s = f a t := by
  rw [bind_apply, h]

/-- A sequence whose first part is known to fail fails with it. -/
theorem bind_of_error {x : Run σ ε α} {f : α → Run σ ε β} {s t : σ} {e : ε}
    (h : x s = (.error e, t)) : (x >>= f) s = (.error e, t) := by
  rw [bind_apply, h]

/-- A sequence whose second part is a pure outcome. -/
theorem bind_ofExcept_apply (x : Run σ ε α) (g : α → Except ε β) (s : σ) :
    (x >>= fun a => ofExcept (g a)) s = ((x s).1.bind g, (x s).2) := by
  rw [bind_apply]
  split
  · next h => rw [h]; rfl
  · next h => rw [h]; rfl

/-- Every failure of every run of `x` satisfies `P`. -/
def FailsIn (P : ε → Prop) (x : Run σ ε α) : Prop := ∀ s, Lib.FailsIn P (x s).1

section
variable {P : ε → Prop}

/-- A pure value does not fail. -/
theorem FailsIn.pure (a : α) : FailsIn P (pure a : Run σ ε α) := fun _ => .ok a

/-- A failure in every state. -/
theorem FailsIn.fail {e : ε} (he : P e) : FailsIn P (fail e : Run σ ε α) := fun _ => .error he

/-- A pure outcome fails as it fails in every state. -/
theorem FailsIn.ofExcept {x : Except ε α} (hx : Lib.FailsIn P x) :
    FailsIn P (ofExcept x : Run σ ε α) := fun _ => hx

/-- Failures that are renamed satisfy what the renaming makes of them. -/
theorem FailsIn.mapError {Q : ε' → Prop} {f : ε → ε'} {x : Run σ ε α} (hx : FailsIn P x)
    (hf : ∀ e, P e → Q (f e)) : FailsIn Q (x.mapError f) := fun s => (hx s).mapError hf

/-- The failures of a run that is renamed whatever it is. -/
theorem FailsIn.mapError_of {Q : ε' → Prop} {f : ε → ε'} (hf : ∀ e, Q (f e)) (x : Run σ ε α) :
    FailsIn Q (x.mapError f) := fun s => .mapError_of hf (x s).1

/-- The failures of a sequence are those of its two parts. -/
theorem FailsIn.bind {x : Run σ ε α} {f : α → Run σ ε β} (hx : FailsIn P x)
    (hf : ∀ a, FailsIn P (f a)) : FailsIn P (x >>= f) := by
  intro s e h
  rcases bind_eq_error.1 (Prod.ext h rfl) with h | ⟨a, t, -, h⟩
  · exact hx s e (congrArg Prod.fst h)
  · exact hf a t e (congrArg Prod.fst h)

end

/-- Every run of `x` moves its state along `R`, whether it returns or fails. With a relation that is
reflexive and transitive this goes through every program that is built of such runs. -/
def Moves (R : σ → σ → Prop) (x : Run σ ε α) : Prop := ∀ s, R s (x s).2

section
variable {R : σ → σ → Prop}

/-- A pure value leaves the state where it is. -/
theorem Moves.pure (hr : ∀ s, R s s) (a : α) : Moves R (pure a : Run σ ε α) := hr

/-- A failure leaves the state where it is. -/
theorem Moves.fail (hr : ∀ s, R s s) (e : ε) : Moves R (fail e : Run σ ε α) := hr

/-- A pure outcome leaves the state where it is. -/
theorem Moves.ofExcept (hr : ∀ s, R s s) (x : Except ε α) : Moves R (ofExcept x : Run σ ε α) := hr

/-- Renaming the failure does not move the state. -/
theorem Moves.mapError {f : ε → ε'} {x : Run σ ε α} (h : Moves R x) : Moves R (x.mapError f) := h

/-- Handing the failure on does not move the state. -/
theorem Moves.attempt {x : Run σ ε α} (h : Moves R x) :
    Moves R (x.attempt : Run σ ε' (Except ε α)) := h

/-- A sequence moves the state along a transitive relation along which both parts move it. If the
first part fails the second one does not move it any further. -/
theorem Moves.bind (ht : ∀ a b c, R a b → R b c → R a c) {x : Run σ ε α} {f : α → Run σ ε β}
    (hx : Moves R x) (hf : ∀ a, Moves R (f a)) : Moves R (x >>= f) := by
  intro s
  have hs := hx s
  rw [bind_apply]
  split
  · next a t h => rw [h] at hs; exact ht _ _ _ hs (hf a t)
  · next e t h => rw [h] at hs; exact hs

end

end Run

/-! ## Outcomes that are computed -/

/-- An outcome that was computed to be a success has a result. -/
theorem exists_of_isOk {ε α σ : Type} {x : Except ε α × σ} (h : x.1.isOk = true) :
    ∃ a, x = (.ok a, x.2) := by
  obtain ⟨r, t⟩ := x
  cases r with
  | ok a => exact ⟨a, rfl⟩
  | error e => cases h

/-- An outcome of whose result something was computed has a result with this property. -/
theorem exists_of_any {ε α σ : Type} {x : Except ε α × σ} {holds : α → Bool}
    (h : x.1.toOption.any holds = true) : ∃ a, x = (.ok a, x.2) ∧ holds a = true := by
  obtain ⟨r, t⟩ := x
  cases r with
  | ok a => exact ⟨a, rfl, h⟩
  | error e => cases h

end Lib
