import Zwirn.Fragment.Source

/-!
# Classification and planning

`classify` compares the embedded source, the stored hash and the file of a fragment, and `plan`
turns the classifications of a selected batch into decisions. `plan_eq_ok` says what a successful
plan is: the decision of each fragment on its own, or, when the operation is forced, its action for
every fragment of a batch of conflicts. The code is in `src/reconcile.rs`.
-/

namespace Zwirn.Sync

open Lib Fragment

/-- A synchronization state reported at the command-line interface. The first two are those of a
fragment without a stored hash. -/
inductive State
  | unadopted
  | unadoptedConflict
  | missing
  | synchronized
  | embed
  | extract
  | converged
  | conflict
deriving DecidableEq, Repr

/-- Filesystem detail hidden by the observable `unadopted` state. -/
inductive UnadoptedFile
  | absent
  | matching
deriving DecidableEq, Repr

/-- A classified fragment, including the hidden distinction needed for adoption. -/
inductive Classification
  | unadopted (file : UnadoptedFile)
  | unadoptedConflict
  | missing
  | synchronized
  | embed
  | extract
  | converged
  | conflict
deriving DecidableEq, Repr

/-- The state of a classification, as it is reported. Whether an unadopted fragment has a file is
forgotten. -/
def Classification.state : Classification → State
  | .unadopted _ => .unadopted
  | .unadoptedConflict => .unadoptedConflict
  | .missing => .missing
  | .synchronized => .synchronized
  | .embed => .embed
  | .extract => .extract
  | .converged => .converged
  | .conflict => .conflict

/-- Classifies validated canonical embedded and filesystem sources. Without a stored hash the two
texts are compared with each other, and with one each of them is compared with the hash too. -/
def classify [Sha256] (embedded : CanonicalSource) (baseline : Option BaselineHash)
    (filesystem : Option CanonicalSource) : Classification :=
  match baseline with
  | none =>
    match filesystem with
    | none => .unadopted .absent
    | some filesystem =>
      if filesystem = embedded then .unadopted .matching else .unadoptedConflict
  | some baseline =>
    match filesystem with
    | none => .missing
    | some filesystem =>
      let filesystemMatches : Bool := BaselineHash.fromSource filesystem = baseline
      let embeddedMatches : Bool := BaselineHash.fromSource embedded = baseline
      if filesystem = embedded then
        if filesystemMatches then .synchronized else .converged
      else
        match filesystemMatches, embeddedMatches with
        | false, true => .embed
        | true, false => .extract
        | false, false | true, true => .conflict

/-- A mutating synchronization operation. -/
inductive Operation
  | embed (force : Bool)
  | extract (force : Bool)
  | sync
deriving DecidableEq, Repr

/-- Whether selectors named exact paths or selected the complete inventory. -/
inductive SelectionKind
  | all
  | explicit
deriving DecidableEq, Repr

/-- A source or baseline mutation selected by the planner. -/
inductive Action
  | record
  | embed
  | extract
deriving DecidableEq, Repr

/-- The action that a command with `--force` takes on every selected fragment. -/
def Operation.forcedAction : Operation → Option Action
  | .embed true => some .embed
  | .extract true => some .extract
  | .embed false | .extract false | .sync => none

/-- What a mutating command should do with one selected fragment. -/
inductive Decision
  | settled
  | act (action : Action)
  | unresolved (state : State)
deriving DecidableEq, Repr

/-- A command-planning validation failure. -/
inductive PlanError
  | forceRequiresExplicitSelection
  | invalidForcedState (index : Nat) (state : State)
  /-- The panic of the arm that forced operations never reach. -/
  | unreachable
deriving DecidableEq, Repr

/-- Whether a forced operation may act on the fragment. -/
def Classification.IsConflict (c : Classification) : Prop := c = .conflict ∨ c = .unadoptedConflict

instance (c : Classification) : Decidable c.IsConflict := inferInstanceAs (Decidable (_ ∨ _))

/-- The decision for one fragment where nothing is forced. Forced operations are planned as one
batch, so they never get here. -/
def planOne (operation : Operation) (selection : SelectionKind) (classification : Classification) :
    Except PlanError Decision :=
  match operation, classification with
  | _, .synchronized => pure .settled
  | _, .unadopted .matching | _, .converged => pure (.act .record)
  | .extract false, .unadopted .absent | .sync, .unadopted .absent
  | .extract false, .extract | .sync, .extract => pure (.act .extract)
  | .extract false, .missing =>
    if selection = .explicit then pure (.act .extract) else pure (.unresolved .missing)
  | .embed false, .embed | .sync, .embed => pure (.act .embed)
  | .embed false, _ | .extract false, _ | .sync, _ => pure (.unresolved classification.state)
  | .embed true, _ | .extract true, _ => .error .unreachable

/-- Plans a selected batch without performing effects. A forced batch is validated in full before
any actions are returned. -/
def plan (operation : Operation) (selection : SelectionKind) (selected : List Classification) :
    Except PlanError (List Decision) :=
  match operation.forcedAction with
  | some action => do
    require (¬ (selection ≠ .explicit ∨ selected = [])) .forceRequiresExplicitSelection
    match selected.zipIdx.find? fun c => ¬ c.1.IsConflict with
    | some (classification, index) => .error (.invalidForcedState index classification.state)
    | none => pure (List.replicate selected.length (.act action))
  | none => selected.mapM (planOne operation selection)

/-! ## What a classification means -/

section
variable [Sha256]

/-- The table of classifications. The rows are the ways in which the stored hash, the embedded text
and the file can agree. -/
inductive Classified (embedded : CanonicalSource) :
    Option BaselineHash → Option CanonicalSource → Classification → Prop
  | absent : Classified embedded none none (.unadopted .absent)
  | matching : Classified embedded none (some embedded) (.unadopted .matching)
  | unadoptedConflict {file : CanonicalSource} : file ≠ embedded →
      Classified embedded none (some file) .unadoptedConflict
  | missing {baseline : BaselineHash} : Classified embedded (some baseline) none .missing
  | synchronized : Classified embedded (some (.fromSource embedded)) (some embedded) .synchronized
  | converged {baseline : BaselineHash} : .fromSource embedded ≠ baseline →
      Classified embedded (some baseline) (some embedded) .converged
  | embed {file : CanonicalSource} : file ≠ embedded →
      BaselineHash.fromSource file ≠ .fromSource embedded →
      Classified embedded (some (.fromSource embedded)) (some file) .embed
  | extract {file : CanonicalSource} : file ≠ embedded →
      BaselineHash.fromSource embedded ≠ .fromSource file →
      Classified embedded (some (.fromSource file)) (some file) .extract
  | conflict {baseline : BaselineHash} {file : CanonicalSource} : file ≠ embedded →
      (.fromSource file = baseline ↔ .fromSource embedded = baseline) →
      Classified embedded (some baseline) (some file) .conflict

variable {embedded : CanonicalSource} {baseline : Option BaselineHash}
  {filesystem : Option CanonicalSource}

/-- `classify` computes the table. The table has a row for each way in which the hash and the file
can be there and agree. -/
theorem classified (embedded : CanonicalSource) (baseline : Option BaselineHash)
    (filesystem : Option CanonicalSource) :
    Classified embedded baseline filesystem (classify embedded baseline filesystem) := by
  cases baseline with
  | none =>
    cases filesystem with
    | none => exact .absent
    | some file =>
      unfold classify
      dsimp only
      split
      · next h => rw [h]; exact .matching
      · next h => exact .unadoptedConflict h
  | some baseline =>
    cases filesystem with
    | none => exact .missing
    | some file =>
      unfold classify
      dsimp only
      by_cases heq : file = embedded
      · subst heq
        rw [if_pos rfl]
        by_cases hfile : BaselineHash.fromSource file = baseline
        · subst hfile; simpa using .synchronized
        · simpa [hfile] using .converged hfile
      · rw [if_neg heq]
        by_cases hfile : BaselineHash.fromSource file = baseline <;>
          by_cases hembedded : BaselineHash.fromSource embedded = baseline
        · simpa [hfile, hembedded] using
            Classified.conflict heq (iff_of_true hfile hembedded)
        · subst hfile; simpa [hembedded] using .extract heq hembedded
        · subst hembedded; simpa [hfile] using .embed heq hfile
        · simpa [hfile, hembedded] using
            Classified.conflict heq (iff_of_false hfile hembedded)

/-- A fragment has one classification. In each row the comparisons that `classify` makes have the
outcome that the row says. -/
theorem Classified.unique {c : Classification} (h : Classified embedded baseline filesystem c) :
    classify embedded baseline filesystem = c := by
  cases h with
  | absent | missing => rfl
  | matching | synchronized => simp [classify]
  | unadoptedConflict hne | converged hne => simp [classify, hne]
  | embed hne hfile => simp [classify, hne, hfile]
  | extract hne hembedded => simp [classify, hne, hembedded]
  | @conflict baseline file hne hiff =>
    by_cases hfile : BaselineHash.fromSource file = baseline
    · simp [classify, hne, hfile, hiff.1 hfile]
    · have hembedded : BaselineHash.fromSource embedded ≠ baseline := fun h => hfile (hiff.2 h)
      simp [classify, hne, hfile, hembedded]

end

/-! ## Decisions -/

/-- The decision for one fragment of a batch that was accepted. Without force no fragment makes the
planning fail. -/
def decision (operation : Operation) (selection : SelectionKind) (c : Classification) : Decision :=
  match operation.forcedAction with
  | some action => .act action
  | none =>
    match planOne operation selection c with
    | .ok decision => decision
    | .error _ => .settled

/-- Where nothing is forced the decision never fails, and it is that of the table. The cases are
those of the operation and of the classification. -/
theorem planOne_eq_ok {operation : Operation} (h : operation.forcedAction = none)
    (selection : SelectionKind) (c : Classification) :
    planOne operation selection c = .ok (decision operation selection c) := by
  unfold decision
  rw [h]
  cases operation with
  | embed force | extract force =>
    cases force with
    | true => cases h
    | false =>
      cases c with
      | unadopted file => cases file <;> rfl
      | missing => cases selection <;> rfl
      | _ => rfl
  | sync =>
    cases c with
    | unadopted file => cases file <;> rfl
    | _ => rfl

/-- A plan has the decision of every fragment; a forced batch is an explicit selection of
conflicts. -/
theorem plan_eq_ok {operation : Operation} {selection : SelectionKind}
    {selected : List Classification} {decisions : List Decision} :
    plan operation selection selected = .ok decisions ↔
      decisions = selected.map (decision operation selection) ∧
        (operation.forcedAction ≠ none →
          selection = .explicit ∧ selected ≠ [] ∧ ∀ c ∈ selected, c.IsConflict) := by
  unfold plan
  cases h : operation.forcedAction with
  | none =>
    have hplan : planOne operation selection = fun c => .ok (decision operation selection c) :=
      funext (planOne_eq_ok h selection)
    have hmap : selected.mapM (planOne operation selection) =
        .ok (selected.map (decision operation selection)) := by
      rw [hplan]
      exact List.mapM_pure
    simp only [hmap, Except.ok.injEq, ne_eq, not_true_eq_false, false_implies, and_true]
    exact eq_comm
  | some action =>
    have hfind : selected.zipIdx.find? (fun c => ¬ c.1.IsConflict) = none ↔
        ∀ c ∈ selected, c.IsConflict := by
      rw [List.find?_eq_none]
      constructor
      · intro hall c hc
        obtain ⟨i, hi⟩ := List.getElem?_of_mem hc
        simpa using hall (c, i) (List.mk_mem_zipIdx_iff_getElem?.2 hi)
      · intro hall c hc
        simpa using hall c.1 (List.fst_mem_of_mem_zipIdx hc)
    have hdecisions : selected.map (decision operation selection) =
        List.replicate selected.length (.act action) := by
      have hconst : decision operation selection = fun _ => .act action := by
        funext c
        simp only [decision, h]
      rw [hconst, List.map_const']
    simp only [Except.bind_eq_ok, require_eq_ok, not_or, not_not, ne_eq, reduceCtorEq,
      not_false_eq_true, true_implies, hdecisions]
    cases hc : selected.zipIdx.find? (fun c => ¬ c.1.IsConflict) with
    | none =>
      have hall := hfind.1 hc
      simp only [Except.pure_eq_ok]
      constructor
      · intro hplan
        obtain ⟨_, hexplicit, rfl⟩ := hplan
        exact ⟨rfl, hexplicit.1, hexplicit.2, hall⟩
      · intro hplan
        obtain ⟨rfl, hexplicit, hne, -⟩ := hplan
        exact ⟨(), ⟨hexplicit, hne⟩, rfl⟩
    | some c =>
      constructor
      · intro hplan
        obtain ⟨_, _, hplan⟩ := hplan
        cases hplan
      · intro hplan
        rw [hfind.2 hplan.2.2.2] at hc
        cases hc

/-- A forced batch is rejected as a whole or for one of its fragments, and no other batch is. The
index is that of a selected fragment, so the error can name its path. -/
theorem plan_failsIn (operation : Operation) (selection : SelectionKind)
    (selected : List Classification) :
    FailsIn (fun e => e = .forceRequiresExplicitSelection ∨
      ∃ index state, e = .invalidForcedState index state ∧ index < selected.length)
      (plan operation selection selected) := by
  intro e he
  cases h : operation.forcedAction with
  | none =>
    rw [plan_eq_ok.2 ⟨rfl, fun hforced => absurd h hforced⟩] at he
    cases he
  | some action =>
    unfold plan at he
    rw [h] at he
    rcases Except.bind_eq_error.1 he with he | ⟨_, -, he⟩
    · unfold require at he
      split at he
      · cases he
      · cases he
        exact .inl rfl
    · split at he
      · next c index hfind =>
        cases he
        have hmem := List.mk_mem_zipIdx_iff_getElem?.1 (List.mem_of_find?_eq_some hfind)
        exact .inr ⟨index, _, rfl, (List.getElem?_eq_some_iff.1 hmem).1⟩
      · cases he

/-- The table of decisions. A forced operation has one row, and the others go by the
classification. -/
inductive Decided (operation : Operation) (selection : SelectionKind) :
    Classification → Decision → Prop
  | forced {c : Classification} {action : Action} : operation.forcedAction = some action →
      Decided operation selection c (.act action)
  | settled : operation.forcedAction = none → Decided operation selection .synchronized .settled
  | matching : operation.forcedAction = none →
      Decided operation selection (.unadopted .matching) (.act .record)
  | converged : operation.forcedAction = none →
      Decided operation selection .converged (.act .record)
  | absent : operation = .extract false ∨ operation = .sync →
      Decided operation selection (.unadopted .absent) (.act .extract)
  | missing : operation = .extract false → selection = .explicit →
      Decided operation selection .missing (.act .extract)
  | extract : operation = .extract false ∨ operation = .sync →
      Decided operation selection .extract (.act .extract)
  | embed : operation = .embed false ∨ operation = .sync →
      Decided operation selection .embed (.act .embed)
  | unresolved {c : Classification} : operation.forcedAction = none →
      Decided operation selection c (.unresolved c.state)

/-- `decision` computes the table. Where nothing is forced the rows are the branches of
`planOne`. -/
theorem decided (operation : Operation) (selection : SelectionKind) (c : Classification) :
    Decided operation selection c (decision operation selection c) := by
  cases h : operation.forcedAction with
  | some action =>
    simp only [decision, h]
    exact .forced h
  | none =>
    have hplan := planOne_eq_ok h selection c
    generalize decision operation selection c = d at hplan
    cases operation, c using planOne.fun_cases selection with
    | case1 operation => cases Except.pure_eq_ok.1 hplan; exact .settled h
    | case2 operation => cases Except.pure_eq_ok.1 hplan; exact .matching h
    | case3 operation => cases Except.pure_eq_ok.1 hplan; exact .converged h
    | case4 | case5 => cases Except.pure_eq_ok.1 hplan; exact .absent (by simp)
    | case6 | case7 => cases Except.pure_eq_ok.1 hplan; exact .extract (by simp)
    | case8 hexplicit =>
      rw [planOne, if_pos hexplicit] at hplan
      cases Except.pure_eq_ok.1 hplan
      exact .missing rfl hexplicit
    | case9 hexplicit =>
      rw [planOne, if_neg hexplicit] at hplan
      cases Except.pure_eq_ok.1 hplan
      exact .unresolved h
    | case10 | case11 => cases Except.pure_eq_ok.1 hplan; exact .embed (by simp)
    | case12 c h1 h2 h3 h4 =>
      rw [planOne] at hplan <;> try assumption
      cases Except.pure_eq_ok.1 hplan
      exact .unresolved h
    | case13 c h1 h2 h3 h4 h5 h6 =>
      rw [planOne] at hplan <;> try assumption
      cases Except.pure_eq_ok.1 hplan
      exact .unresolved h
    | case14 c h1 h2 h3 h4 h5 h6 =>
      rw [planOne] at hplan <;> try assumption
      cases Except.pure_eq_ok.1 hplan
      exact .unresolved h
    | case15 | case16 => cases h

end Zwirn.Sync
