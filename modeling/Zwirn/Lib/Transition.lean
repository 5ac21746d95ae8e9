import Mathlib

/-!
# Labelled transition systems

`Trace step s ls t` is a run from `s` to `t` whose steps have the labels `ls`. The rules: an
invariant of the state and of the labels so far (`Trace.invariant`), a state property that steps
keep and that bounds the labels they may have (`Trace.forall_of_closed`), a budget that the steps of
one label use up (`Trace.count_le_budget`), and a potential that pays what steps cost with what
other steps give (`Trace.amortized`).
-/

namespace Lib

/-- What a list costs that costs one for each element with a property. -/
theorem sum_map_indicator {α : Type} (p : α → Bool) (as : List α) :
    (as.map fun a => if p a then 1 else 0).sum = as.countP p := by
  induction as with
  | nil => rfl
  | cons a as ih => rw [List.map_cons, List.sum_cons, ih, List.countP_cons, Nat.add_comm]

section
variable {σ α : Type}

/-- A run of a labelled transition relation. -/
inductive Trace (step : σ → α → σ → Prop) : σ → List α → σ → Prop
  | nil (s : σ) : Trace step s [] s
  | cons {s t u : σ} {l : α} {ls : List α} :
      step s l t → Trace step t ls u → Trace step s (l :: ls) u

namespace Trace
variable {step : σ → α → σ → Prop} {s t u : σ} {l : α} {ls ls' : List α}

/-- One step is a run of one label. -/
theorem single (h : step s l t) : Trace step s [l] t := .cons h (.nil t)

/-- Two runs make up one, if the second one starts where the first one ends. -/
theorem append (h : Trace step s ls t) (h' : Trace step t ls' u) : Trace step s (ls ++ ls') u := by
  induction h with
  | nil => exact h'
  | cons hstep _ ih => exact .cons hstep (ih h')

/-- A run over appended labels passes through the state after the first part. -/
theorem append_inv (h : Trace step s (ls ++ ls') u) :
    ∃ t, Trace step s ls t ∧ Trace step t ls' u := by
  induction ls generalizing s with
  | nil => exact ⟨s, .nil s, h⟩
  | cons l ls ih =>
    cases h with
    | cons hstep hrest =>
      obtain ⟨t, h1, h2⟩ := ih hrest
      exact ⟨t, .cons hstep h1, h2⟩

/-- A run of at least one step takes its first one and goes on from there. -/
theorem cons_inv (h : Trace step s (l :: ls) u) : ∃ t, step s l t ∧ Trace step t ls u := by
  cases h with
  | cons hstep hrest => exact ⟨_, hstep, hrest⟩

/-- A run whose labels satisfy `Q` is a run of the steps whose labels do. -/
theorem restrict {Q : α → Prop} (h : Trace step s ls t) (hls : ∀ l ∈ ls, Q l) :
    Trace (fun s l t => step s l t ∧ Q l) s ls t := by
  induction h with
  | nil => exact .nil _
  | cons hl _ ih =>
    obtain ⟨hq, hrest⟩ := List.forall_mem_cons.1 hls
    exact .cons ⟨hl, hq⟩ (ih hrest)

/-- What holds at the start, and is kept by every step together with its label, holds of every
run. -/
theorem invariant {init : σ} {P : List α → σ → Prop} (h : Trace step init ls t) (hinit : P [] init)
    (hstep : ∀ ls s l t, P ls s → step s l t → P (ls ++ [l]) t) : P ls t := by
  induction ls using List.reverseRecOn generalizing t with
  | nil => cases h; exact hinit
  | append_singleton ls l ih =>
    obtain ⟨s, h1, h2⟩ := h.append_inv
    obtain ⟨t', hl, hnil⟩ := h2.cons_inv
    cases hnil
    exact hstep _ _ _ _ (ih h1) hl

/-- From a state of a closed set, every label of a run is one its states allow. -/
theorem forall_of_closed {P : σ → Prop} {Q : α → Prop} (h : Trace step s ls t) (hs : P s)
    (hstep : ∀ s l t, P s → step s l t → P t ∧ Q l) : P t ∧ ∀ l ∈ ls, Q l := by
  induction h with
  | nil => exact ⟨hs, by simp⟩
  | cons hl _ ih =>
    obtain ⟨ht, hq⟩ := hstep _ _ _ hs hl
    obtain ⟨hu, hall⟩ := ih ht
    exact ⟨hu, List.forall_mem_cons.2 ⟨hq, hall⟩⟩

/-- A budget that every step with label `l` lowers, and no step raises, bounds the number of these
steps. -/
theorem count_le_budget [DecidableEq α] {P : σ → Prop} {budget : σ → Nat} (h : Trace step s ls t)
    (hs : P s) (hstep : ∀ s l' t, P s → step s l' t →
      P t ∧ budget t + (if l' = l then 1 else 0) ≤ budget s) : ls.count l ≤ budget s := by
  induction h with
  | nil => exact Nat.zero_le _
  | @cons s t u l' ls hl _ ih =>
    obtain ⟨ht, hb⟩ := hstep _ _ _ hs hl
    have hrest := ih ht
    rw [List.count_cons]
    split at hb
    · next he => rw [if_pos (by simpa using he)]; omega
    · next he => rw [if_neg (by simpa using he)]; omega

/-- Where each step is paid by the potential and by what the step gives, a run is. So a run costs no
more than the potential that it starts with and what its steps give altogether. -/
theorem amortized {P : σ → Prop} {potential : σ → Nat} {cost gain : α → Nat}
    (h : Trace step s ls t) (hs : P s) (hstep : ∀ s l t, P s → step s l t →
      P t ∧ potential t + cost l ≤ potential s + gain l) :
    P t ∧ potential t + (ls.map cost).sum ≤ potential s + (ls.map gain).sum := by
  induction h with
  | nil => exact ⟨hs, Nat.le_refl _⟩
  | cons hl _ ih =>
    obtain ⟨ht, hpaid⟩ := hstep _ _ _ hs hl
    obtain ⟨hu, hrest⟩ := ih ht
    refine ⟨hu, ?_⟩
    rw [List.map_cons, List.map_cons, List.sum_cons, List.sum_cons]
    omega

end Trace

end

end Lib
