import Zwirn.Lib.Output
import Zwirn.Sync.Prepare

/-!
# What is printed

A report is printed a line an entry: the path, a tab, and the state or the action. States and
actions share names, but what one operation reports of them does not, so a line tells what was
reported (`Mode.Reports.line_injective`). The texts of a report are those of `src/reconcile.rs` and
`src/main.rs`.
-/

namespace Zwirn.Sync

open Lib Fragment

/-! ## Texts -/

/-- The text of a state in a line of the report. -/
def State.asStr : State → Str
  | .unadopted => "unadopted".toList
  | .unadoptedConflict => "unadopted conflict".toList
  | .missing => "missing".toList
  | .synchronized => "synchronized".toList
  | .embed => "embed".toList
  | .extract => "extract".toList
  | .converged => "converged".toList
  | .conflict => "conflict".toList

/-- The text of an action. -/
def Action.asStr : Action → Str
  | .record => "record".toList
  | .embed => "embed".toList
  | .extract => "extract".toList

/-- The text behind the path of a line. -/
def ReportEntry.result : ReportEntry → Str
  | .state _ found => found.asStr
  | .action _ found => found.asStr

/-- The line of an entry. -/
def ReportEntry.line (entry : ReportEntry) : Str := entry.path.value ++ '\t' :: entry.result

/-- The texts of failures and of paths. -/
class Texts where
  path : Path → Str
  io : IoError → Str
  error : Error → Str
  commitFailure : CommitFailure → Str
  coordinatedAccessFailure : CoordinatedAccessFailure → Str

/-- The text of a failure, without the external writes that completed before it. -/
def engineFailure [Texts] : Error → Str
  | .commit error => Texts.commitFailure error.failure
  | .coordination error => Texts.coordinatedAccessFailure error.failure
  | error => Texts.error error

/-! ## Reading a line -/

/-- States have different texts. -/
theorem State.asStr_injective : Function.Injective State.asStr := by
  intro a b h
  cases a <;> cases b <;> first | rfl | exact absurd h (by decide)

/-- Actions have different texts. -/
theorem Action.asStr_injective : Function.Injective Action.asStr := by
  intro a b h
  cases a <;> cases b <;> first | rfl | exact absurd h (by decide)

/-- No blank is in a path. -/
theorem not_mem_blank (path : FragmentPath) {c : Char} (hc : isWhitespace c = true) :
    c ∉ path.value := by
  intro hmem
  have hplain := (path.valid_parts).2
  rw [List.any_eq_false] at hplain
  exact hplain _ hmem hc

/-- The tab of a line is its first one. -/
theorem not_mem_tab (path : FragmentPath) : '\t' ∉ path.value := not_mem_blank path (by decide)

/-- A line of a report holds no newline. The path has no blank in it, and the results are fixed
words. -/
theorem ReportEntry.not_mem_newline (e : ReportEntry) : '\n' ∉ e.line := by
  have hresult : '\n' ∉ e.result := by
    cases e with
    | state path found =>
      rw [ReportEntry.result]
      cases found <;> decide
    | action path found =>
      rw [ReportEntry.result]
      cases found <;> decide
  rw [ReportEntry.line, List.mem_append, List.mem_cons]
  rintro (hpath | htab | hfound)
  · exact not_mem_blank e.path (by decide) hpath
  · cases htab
  · exact hresult hfound

/-- A line is read back as a path and a result. -/
theorem ReportEntry.line_parts {e e' : ReportEntry} (h : e.line = e'.line) :
    e.path = e'.path ∧ e.result = e'.result := by
  have hpath : e.path.value = e'.path.value := by
    rw [← takeWhile_ne_append (b := e.result) (not_mem_tab e.path), ← ReportEntry.line, h,
      ReportEntry.line, takeWhile_ne_append (not_mem_tab e'.path)]
  refine ⟨FragmentPath.value_injective hpath, ?_⟩
  rw [ReportEntry.line, ReportEntry.line, hpath, List.append_cancel_left_eq, List.cons.injEq] at h
  exact h.2

/-! ## Reading a report -/

/-- What is reported of a decision about a fragment. -/
def Decision.report (path : FragmentPath) : Decision → Option ReportEntry
  | .settled => none
  | .unresolved found => some (.state path found)
  | .act action => some (.action path action)

/-- The line of a decided entry is that of its decision and its path. -/
theorem reportOf_eq (d : InventoryEntry × Decision) : reportOf d = d.2.report d.1.path := by
  obtain ⟨entry, decision⟩ := d
  cases decision <;> rfl

/-- The entries that a mode can report. -/
inductive Mode.Reports : Mode → ReportEntry → Prop
  | status (path : FragmentPath) (found : State) : Reports .status (.state path found)
  | mutate {op : Operation} {selection : SelectionKind} {c : Classification} {path : FragmentPath}
      {e : ReportEntry} : (decision op selection c).report path = some e → Reports (.mutate op) e

/-- Only an extraction leaves alone what could be embedded. -/
theorem decision_embed {op : Operation} {selection : SelectionKind} {c : Classification} :
    (decision op selection c = .unresolved .embed → op = .extract false) ∧
      (decision op selection c = .act .embed → op ≠ .extract false) := by
  rcases op with (_ | _) | (_ | _) | _ <;> rcases c with (_ | _) | _ | _ | _ | _ | _ | _ | _ <;>
    cases selection <;> decide

/-- Only an embedding leaves alone what could be extracted. -/
theorem decision_extract {op : Operation} {selection : SelectionKind} {c : Classification} :
    (decision op selection c = .unresolved .extract → op = .embed false) ∧
      (decision op selection c = .act .extract → op ≠ .embed false) := by
  rcases op with (_ | _) | (_ | _) | _ <;> rcases c with (_ | _) | _ | _ | _ | _ | _ | _ | _ <;>
    cases selection <;> decide

/-- For one operation a state and an action that it reports differ in name. Embed and extract name a
state that is also an action, but only of the other direction. -/
theorem Mode.Reports.result_ne {op : Operation} {path path' : FragmentPath} {found : State}
    {action : Action} (h : Mode.Reports (.mutate op) (.state path found))
    (h' : Mode.Reports (.mutate op) (.action path' action)) : found.asStr ≠ action.asStr := by
  have hunresolved : ∃ selection c, decision op selection c = .unresolved found := by
    cases h with
    | @mutate _ selection c path'' _ hreport =>
      refine ⟨selection, c, ?_⟩
      cases hd : decision op selection c with
      | settled | act => rw [hd] at hreport; cases hreport
      | unresolved => rw [hd] at hreport; cases hreport; rfl
  have hact : ∃ selection c, decision op selection c = .act action := by
    cases h' with
    | @mutate _ selection c path'' _ hreport =>
      refine ⟨selection, c, ?_⟩
      cases hd : decision op selection c with
      | settled | unresolved => rw [hd] at hreport; cases hreport
      | act => rw [hd] at hreport; cases hreport; rfl
  obtain ⟨selection, c, hunresolved⟩ := hunresolved
  obtain ⟨selection', c', hact⟩ := hact
  intro heq
  cases found <;> cases action <;> first
    | exact absurd heq (by decide)
    | exact decision_embed.2 hact (decision_embed.1 hunresolved)
    | exact decision_extract.2 hact (decision_extract.1 hunresolved)

/-- For one mode a line tells what was reported. The path is in front of the tab, and the name of
what was reported behind it. -/
theorem Mode.Reports.line_injective {mode : Mode} {e e' : ReportEntry} (h : mode.Reports e)
    (h' : mode.Reports e') (hline : e.line = e'.line) : e = e' := by
  obtain ⟨hpath, hresult⟩ := ReportEntry.line_parts hline
  cases mode with
  | status =>
    cases h
    cases h'
    cases hpath
    rw [State.asStr_injective hresult]
  | mutate op =>
    cases e with
    | state path found =>
      cases e' with
      | state path' found' => cases hpath; rw [State.asStr_injective hresult]
      | action path' found' => exact absurd hresult (h.result_ne h')
    | action path found =>
      cases e' with
      | state path' found' => exact absurd hresult.symm (h'.result_ne h)
      | action path' found' => cases hpath; rw [Action.asStr_injective hresult]

/-! ## Samples -/

/-- Every access is granted. -/
def sampleAccess {σ : Type} : AccessPolicy σ CoordinatedAccessFailure := ⟨fun _ _ => pure ()⟩

/-- A writer that only notes the lines it is given. It never fails. -/
def sampleWriter : LineWriter (List Str) IoError where
  writeLine line s := (.ok (), s ++ [line])
  lines := id
  wrote := by
    intro line s t h
    cases h
    rfl

/-- The texts of the system on the sample are empty. What is shown of a report does not depend on
them. -/
@[reducible] def sampleTexts : Texts where
  path _ := []
  io _ := []
  error _ := []
  commitFailure _ := []
  coordinatedAccessFailure _ := []

end Zwirn.Sync
