import Zwirn.Live.Monitor
import Zwirn.Sync.Report

/-!
# The diagnostics of the session

The reporter prints what a reconciliation did, and what blocks it when that changes. The lines are a
function of the result and of the blocker before it (`Diagnostics.reconciliation_eq`). Nothing is
printed of a reconciliation that did nothing and left the blocker (`messages_eq_nil`). A line tells
what is printed in it (`Message.text_eq_text_iff`). The last status lines are always those of what
blocks the session (`Stands.reconciliation`), whatever lines of earlier blockers stand before them.
The code is in `src/live.rs`.
-/

namespace Zwirn.Live

open Lib Fragment Sync

/-- A failure that prevents the foreground live session from continuing. -/
inductive Error
  | invalidDocumentExtension (path : Path)
  | monitor (source : StartError)
  | signalRegistration (source : IoError)
  | signalThreadStart (source : IoError)
  | signalThreadStopped
  | eventDeliveryStopped
  | diagnostic (source : IoError)
deriving DecidableEq

/-- What keeps a session from having nothing to do: fragments that need attention, with the line of
each, or the failure of the last reconciliation. -/
inductive Blocker
  | states (states : List Str)
  | failure (failure : Str)
deriving DecidableEq

/-- What is to be printed when what blocks the session has changed. -/
inductive BlockerTransition
  | unchanged
  | report
  | recovered
  | recoveredAndReport
deriving DecidableEq, Repr

/-- Nothing is printed while the blocker stays. A failure that gives way to states has recovered. -/
def blockerTransition (previous current : Option Blocker) : BlockerTransition :=
  if previous = current then .unchanged
  else
    match previous, current with
    | some _, none => .recovered
    | some (.failure _), some (.states _) => .recoveredAndReport
    | _, _ => .report

/-- What is printed in a line. -/
inductive Message
  | started (document : Path)
  | stopped
  | acted (path : FragmentPath) (action : Action)
  | committed (path : FragmentPath)
  | recovered
  | attention (path : FragmentPath) (found : State)
  | blocked (failure : Str)
deriving DecidableEq

/-- The line of a message. -/
def Message.text [Texts] : Message → Str
  | .started document => "zwirn live: monitoring `".toList ++ Texts.path document ++ ['`']
  | .stopped => "zwirn live: stopped".toList
  | .acted path action => "zwirn live: ".toList ++ (ReportEntry.action path action).line
  | .committed path =>
    "zwirn live: external file already written for `".toList ++ path.value ++ ['`']
  | .recovered => "zwirn live: reconciliation recovered".toList
  | .attention path found =>
    "zwirn live: attention: ".toList ++ (ReportEntry.state path found).line
  | .blocked failure => "zwirn live: blocked: ".toList ++ failure

/-- The reporter of a session: where it writes, and the blocker that it has printed last. -/
structure Diagnostics (ω : Type) where
  writer : ω
  blocker : Option Blocker

namespace Diagnostics

section
variable {ω : Type} [Texts] (w : LineWriter ω IoError)

/-- Writes a line. -/
def writeText (text : Str) : Run (Diagnostics ω) Error Unit := fun d =>
  let (r, writer) := w.writeLine text d.writer
  (mapError .diagnostic r, { d with writer := writer })

/-- Writes the line of a message. -/
def write (message : Message) : Run (Diagnostics ω) Error Unit := writeText w message.text

/-- Prints that the session has started to monitor the document. -/
def started (document : Path) : Run (Diagnostics ω) Error Unit := write w (.started document)

/-- Prints that the session stops. -/
def stopped : Run (Diagnostics ω) Error Unit := write w .stopped

/-- Prints an action, and collects a state. -/
def reportEntry (states : List Str) : ReportEntry → Run (Diagnostics ω) Error (List Str)
  | .action path found => do
    write w (.acted path found)
    pure states
  | .state path found => pure (states ++ [(ReportEntry.state path found).line])

/-- Prints a blocker, a line for each state that was collected. -/
def reportBlocker : Option Blocker → Run (Diagnostics ω) Error Unit
  | some (.states states) =>
    states.forM fun state => writeText w ("zwirn live: attention: ".toList ++ state)
  | some (.failure failure) => write w (.blocked failure)
  | none => pure ()

/-- Prints what a reconciliation did, and tells what blocks it now. Actions come one line each;
after a failure the files that were already written do. -/
def reportResult : Except Sync.Error Report → Run (Diagnostics ω) Error (Option Blocker)
  | .ok report => do
    let states ← report.entries.foldlM (reportEntry w) []
    pure (if states.isEmpty then none else some (.states states))
  | .error error => do
    error.committedExternal.forM fun path => write w (.committed path)
    pure (some (.failure (engineFailure error)))

/-- Prints what has changed of the blocker. The lines of a blocker are printed when it comes up, and
not again while it stays. -/
def reportTransition (current : Option Blocker) :
    BlockerTransition → Run (Diagnostics ω) Error Unit
  | .unchanged => pure ()
  | .recovered => write w .recovered
  | .recoveredAndReport => do
    write w .recovered
    reportBlocker w current
  | .report => reportBlocker w current

/-- The remembered blocker. -/
def previous : Run (Diagnostics ω) Error (Option Blocker) := fun d => (.ok d.blocker, d)

/-- Keeps the blocker for the next reconciliation. -/
def remember (blocker : Option Blocker) : Run (Diagnostics ω) Error Unit := fun d =>
  (.ok (), { d with blocker := blocker })

/-- Prints the result of a reconciliation, and what has changed of the blocker with it. -/
def reconciliation (result : Except Sync.Error Report) : Run (Diagnostics ω) Error Unit := do
  let current ← reportResult w result
  let previous ← previous
  reportTransition w current (blockerTransition previous current)
  remember current

end

end Diagnostics

/-! ## The lines of a reconciliation -/

/-- The state of an entry that is one. -/
def stateOf : ReportEntry → Option (FragmentPath × State)
  | .state path found => some (path, found)
  | .action _ _ => none

/-- The action of an entry that is one. -/
def actedMessage : ReportEntry → Option Message
  | .state _ _ => none
  | .action path found => some (.acted path found)

/-- The line that is collected of a state. -/
def stateLine (state : FragmentPath × State) : Str := (ReportEntry.state state.1 state.2).line

/-- What blocks the session after a reconciliation. -/
def blockerOf [Texts] : Except Sync.Error Report → Option Blocker
  | .ok report =>
    let states := (report.entries.filterMap stateOf).map stateLine
    if states.isEmpty then none else some (.states states)
  | .error error => some (.failure (engineFailure error))

/-- What a reconciliation has done. -/
def doneMessages : Except Sync.Error Report → List Message
  | .ok report => report.entries.filterMap actedMessage
  | .error error => error.committedExternal.map .committed

/-- What is printed of what blocks the session after a reconciliation. -/
def blockerMessages [Texts] : Except Sync.Error Report → List Message
  | .ok report => (report.entries.filterMap stateOf).map fun state => .attention state.1 state.2
  | .error error => [.blocked (engineFailure error)]

/-- What is printed of a transition to what blocks the session after a reconciliation. -/
def transitionMessages [Texts] (result : Except Sync.Error Report) :
    BlockerTransition → List Message
  | .unchanged => []
  | .recovered => [.recovered]
  | .recoveredAndReport => .recovered :: blockerMessages result
  | .report => blockerMessages result

/-- What is printed of a reconciliation. -/
def messages [Texts] (previous : Option Blocker) (result : Except Sync.Error Report) :
    List Message :=
  doneMessages result ++
    transitionMessages result (blockerTransition previous (blockerOf result))

section
variable {ω : Type} [Texts] (w : LineWriter ω IoError)

/-- Writes lines, up to the first that fails. -/
def Diagnostics.writeTexts (texts : List Str) : Run (Diagnostics ω) Error Unit := fun d =>
  let (r, writer) := w.writeLines texts d.writer
  (mapError .diagnostic r, { d with writer := writer })

/-- Writes the lines of messages. -/
def Diagnostics.writeAll (ms : List Message) : Run (Diagnostics ω) Error Unit :=
  writeTexts w (ms.map Message.text)

namespace Diagnostics

omit [Texts] in
/-- Lines are written one list behind the other. -/
theorem writeTexts_append (texts texts' : List Str) :
    writeTexts w (texts ++ texts') = writeTexts w texts >>= fun _ => writeTexts w texts' := by
  funext d
  rw [Run.bind_apply, writeTexts, LineWriter.writeLines_append, Run.bind_apply, writeTexts]
  cases w.writeLines texts d.writer with
  | mk r writer => cases r <;> rfl

omit [Texts] in
/-- A line is a list of one. -/
theorem writeText_eq (text : Str) : writeText w text = writeTexts w [text] := by
  funext d
  rw [writeText, writeTexts, LineWriter.writeLines_cons, Run.bind_apply]
  cases w.writeLine text d.writer with
  | mk r writer => cases r <;> rfl

omit [Texts] in
/-- A loop that writes a line for each element writes a list of lines. -/
theorem forM_writeText {α : Type} (f : α → Str) (as : List α) :
    as.forM (fun a => writeText w (f a)) = writeTexts w (as.map f) := by
  induction as with
  | nil => rfl
  | cons a as ih =>
    rw [List.map_cons, show f a :: as.map f = [f a] ++ as.map f from rfl, writeTexts_append,
      ← writeText_eq, ← ih]
    rfl

/-- Writing two lists of messages is writing one after the other. -/
theorem writeAll_append (ms ms' : List Message) :
    writeAll w (ms ++ ms') = writeAll w ms >>= fun _ => writeAll w ms' := by
  rw [writeAll, List.map_append, writeTexts_append]
  rfl

/-- Writing one message is writing a list of it. -/
theorem write_eq (m : Message) : write w m = writeAll w [m] := writeText_eq w m.text

/-- A loop that writes a message for each element writes a list of messages. -/
theorem forM_write {α : Type} (f : α → Message) (as : List α) :
    as.forM (fun a => write w (f a)) = writeAll w (as.map f) := by
  rw [writeAll, List.map_map]
  exact forM_writeText w (Message.text ∘ f) as

/-- The blocker of a result is printed with the messages of the result. A failure is one message,
and states are one message each. -/
theorem reportBlocker_eq (result : Except Sync.Error Report) :
    reportBlocker w (blockerOf result) = writeAll w (blockerMessages result) := by
  cases result with
  | error error => exact write_eq w _
  | ok report =>
    simp only [blockerOf, blockerMessages, List.isEmpty_iff, List.map_eq_nil_iff]
    split
    · next hempty =>
      rw [hempty]
      rfl
    · rw [reportBlocker, forM_writeText, writeAll, List.map_map, List.map_map]
      rfl

/-- What the reporter writes of a change of its blocker are the messages of this change. -/
theorem reportTransition_eq (result : Except Sync.Error Report) (transition : BlockerTransition) :
    reportTransition w (blockerOf result) transition =
      writeAll w (transitionMessages result transition) := by
  cases transition with
  | unchanged => rfl
  | report => exact reportBlocker_eq w result
  | recovered => exact write_eq w _
  | recoveredAndReport =>
    rw [transitionMessages, ← List.singleton_append, writeAll_append, ← write_eq,
      ← reportBlocker_eq]
    rfl

/-- An entry is printed if it is an action, and its line is collected if it is a state. -/
theorem reportEntry_eq (states : List Str) (e : ReportEntry) :
    reportEntry w states e = writeAll w (actedMessage e).toList >>= fun _ =>
      pure (states ++ ((stateOf e).toList.map stateLine)) := by
  cases e with
  | state => rfl
  | action =>
    rw [reportEntry, write_eq, stateOf, Option.toList_none, List.map_nil, List.append_nil]
    rfl

/-- The loop over the entries prints the actions and collects the states. The order of the two kinds
is kept, each in itself. The induction is on the entries. -/
theorem foldlM_reportEntry (states : List Str) (entries : List ReportEntry) :
    entries.foldlM (reportEntry w) states =
      writeAll w (entries.filterMap actedMessage) >>= fun _ =>
        pure (states ++ (entries.filterMap stateOf).map stateLine) := by
  induction entries generalizing states with
  | nil =>
    rw [List.filterMap_nil, List.filterMap_nil, List.map_nil, List.append_nil]
    rfl
  | cons e entries ih =>
    have hacted : (e :: entries).filterMap actedMessage =
        (actedMessage e).toList ++ entries.filterMap actedMessage := by
      cases e <;> rfl
    have hstates : (e :: entries).filterMap stateOf =
        (stateOf e).toList ++ entries.filterMap stateOf := by
      cases e <;> rfl
    rw [List.foldlM_cons, reportEntry_eq, Run.bind_bind, hacted, hstates, writeAll_append,
      Run.bind_bind]
    congr 1
    funext _
    rw [List.map_append, ← List.append_assoc]
    exact ih _

/-- What was done is printed first, and what blocks the session now is known. -/
theorem reportResult_eq (result : Except Sync.Error Report) :
    reportResult w result = writeAll w (doneMessages result) >>= fun _ =>
      pure (blockerOf result) := by
  cases result with
  | ok report =>
    rw [reportResult, foldlM_reportEntry, Run.bind_bind]
    rfl
  | error error =>
    rw [reportResult, forM_write]
    rfl

/-- Writing messages leaves the blocker as it is. -/
theorem writeAll_blocker (ms : List Message) (d : Diagnostics ω) :
    (writeAll w ms d).2.blocker = d.blocker := rfl

/-- A reconciliation writes its lines and remembers its blocker. The lines depend on the result and
on the blocker before it, and on nothing else of the reporter. -/
theorem reconciliation_eq (result : Except Sync.Error Report) :
    reconciliation w result = previous >>= fun blocker =>
      writeAll w (messages blocker result) >>= fun _ => remember (blockerOf result) := by
  funext d
  have hblocker := writeAll_blocker w (doneMessages result) d
  rw [reconciliation, reportResult_eq, Run.bind_bind, Run.bind_apply]
  change _ = (writeAll w (messages d.blocker result) >>= fun _ => remember (blockerOf result)) d
  rw [messages, writeAll_append, Run.bind_bind, Run.bind_apply]
  cases hdone : writeAll w (doneMessages result) d with
  | mk r d₁ =>
    rw [hdone] at hblocker
    cases r with
    | error e => rfl
    | ok u =>
      change (reportTransition w (blockerOf result) (blockerTransition d₁.blocker _) >>= fun _ =>
        remember (blockerOf result)) d₁ = _
      rw [reportTransition_eq, hblocker]

/-- What a reconciliation has left that could be printed. A failed write ends the session, so
nothing is said of it here. -/
theorem reconciliation_eq_ok {result : Except Sync.Error Report} {d d' : Diagnostics ω}
    (h : reconciliation w result d = (.ok (), d')) :
    w.lines d'.writer = w.lines d.writer ++ (messages d.blocker result).map Message.text ∧
      d'.blocker = blockerOf result := by
  rw [reconciliation_eq, Run.bind_eq_ok] at h
  obtain ⟨blocker, d₁, hprevious, h⟩ := h
  cases hprevious
  obtain ⟨_, d₂, hwritten, hremember⟩ := Run.bind_eq_ok.1 h
  cases hremember
  refine ⟨?_, rfl⟩
  have hlines : w.writeLines ((messages d.blocker result).map Message.text) d.writer =
      (.ok (), d₂.writer) := by
    rw [writeAll, writeTexts] at hwritten
    cases hr : w.writeLines ((messages d.blocker result).map Message.text) d.writer with
    | mk r writer =>
      rw [hr] at hwritten
      cases r with
      | error e => cases congrArg Prod.fst hwritten
      | ok u =>
        obtain rfl : ⟨writer, d.blocker⟩ = d₂ := congrArg Prod.snd hwritten
        rfl
  exact LineWriter.writeLines_eq_ok hlines

end Diagnostics

end

/-! ## Reading a line -/

/-- A line of a state tells the fragment and its state. -/
theorem stateLine_injective : Function.Injective stateLine := by
  rintro ⟨path, found⟩ ⟨path', found'⟩ h
  obtain ⟨hpath, hresult⟩ := ReportEntry.line_parts h
  exact Prod.ext hpath (State.asStr_injective hresult)

/-- The first blank of a text. -/
def firstBlank (s : Str) : Option Char := s.find? isWhitespace

/-- The first blank of a line of a report is the tab behind the path, since no path has a blank. -/
theorem firstBlank_line (e : ReportEntry) : firstBlank e.line = some '\t' := by
  have hplain := (e.path.valid_parts).2
  rw [ReportEntry.line, firstBlank, List.find?_append, List.find?_eq_none.2, Option.none_or]
  · rfl
  · intro c hc
    rw [List.any_eq_false] at hplain
    exact hplain c hc

section
variable [Texts]

/-- What stands behind the name of the program. -/
def Message.body : Message → Str
  | .started document => "monitoring `".toList ++ Texts.path document ++ ['`']
  | .stopped => "stopped".toList
  | .acted path found => (ReportEntry.action path found).line
  | .committed path => "external file already written for `".toList ++ path.value ++ ['`']
  | .recovered => "reconciliation recovered".toList
  | .attention path found => "attention: ".toList ++ (ReportEntry.state path found).line
  | .blocked failure => "blocked: ".toList ++ failure

/-- The text of a message is its body behind the name of the program. -/
theorem Message.text_eq (m : Message) : m.text = "zwirn live: ".toList ++ m.body := by
  cases m <;> rfl

/-- Only the line of an action has a tab for its first blank. -/
theorem Message.firstBlank_body (m : Message) (h : ∀ path found, m ≠ .acted path found) :
    firstBlank m.body ≠ some '\t' := by
  cases m with
  | acted path found => exact absurd rfl (h path found)
  | started document | stopped | committed path | recovered | attention path found
  | blocked failure => exact of_decide_eq_false rfl

/-- The line of an action is read back as that. -/
theorem Message.eq_acted {m : Message} {path : FragmentPath} {found : Action}
    (h : m.body = (Message.acted path found).body) : m = .acted path found := by
  by_cases hacted : ∃ path' found', m = .acted path' found'
  · obtain ⟨path', found', rfl⟩ := hacted
    obtain ⟨hpath, hresult⟩ := ReportEntry.line_parts h
    cases hpath
    rw [Action.asStr_injective hresult]
  · have hblank := m.firstBlank_body fun path' found' heq => hacted ⟨path', found', heq⟩
    rw [h] at hblank
    exact absurd (firstBlank_line (.action path found)) hblank

/-- A line tells what is printed in it, up to the text of the document's path. The cases are those
of the messages. Most of them differ in their first character, and those with a path give it back,
since a path has no blanks in it. -/
theorem Message.text_eq_text_iff (m m' : Message) : m.text = m'.text ↔ m = m' ∨
    ∃ document document', m = .started document ∧ m' = .started document' ∧
      Texts.path document = Texts.path document' := by
  refine ⟨fun h => ?_, fun h => ?_⟩
  · rw [Message.text_eq, Message.text_eq, List.append_cancel_left_eq] at h
    have hhead := congrArg List.head? h
    cases m with
    | acted path found => exact .inl (Message.eq_acted h.symm).symm
    | started document =>
      cases m' with
      | acted path found => exact .inl (Message.eq_acted h)
      | started document' =>
        exact .inr ⟨_, _, rfl, rfl, List.append_cancel_left (List.append_cancel_right h)⟩
      | _ => cases hhead
    | committed path =>
      cases m' with
      | acted path found => exact .inl (Message.eq_acted h)
      | committed path' =>
        rw [FragmentPath.value_injective (List.append_cancel_left (List.append_cancel_right h))]
        exact .inl rfl
      | _ => cases hhead
    | attention path found =>
      cases m' with
      | acted path found => exact .inl (Message.eq_acted h)
      | attention path' found' =>
        have hstate : (path, found) = (path', found') :=
          stateLine_injective (List.append_cancel_left h)
        cases hstate
        exact .inl rfl
      | _ => cases hhead
    | blocked failure =>
      cases m' with
      | acted path found => exact .inl (Message.eq_acted h)
      | blocked failure' =>
        rw [List.append_cancel_left h]
        exact .inl rfl
      | _ => cases hhead
    | stopped | recovered =>
      cases m' with
      | acted path found => exact .inl (Message.eq_acted h)
      | stopped | recovered => first | exact .inl rfl | cases hhead
      | _ => cases hhead
  · rcases h with rfl | ⟨document, document', rfl, rfl, hpath⟩
    · rfl
    · exact congrArg (fun path => "zwirn live: monitoring `".toList ++ path ++ ['`']) hpath

end

/-! ## What the lines tell -/

/-- The transitions, by what is printed of them. Whether a recovery is printed in front of a new
blocker depends on the blocker before it. -/
theorem blockerTransition_cases (previous current : Option Blocker) :
    current = previous ∧ blockerTransition previous current = .unchanged ∨
    current = none ∧ previous ≠ none ∧ blockerTransition previous current = .recovered ∨
    ∃ blocker, current = some blocker ∧ current ≠ previous ∧
      (blockerTransition previous current = .report ∨
        blockerTransition previous current = .recoveredAndReport) := by
  rcases eq_or_ne current previous with rfl | hne
  · exact .inl ⟨rfl, if_pos rfl⟩
  · unfold blockerTransition
    rw [if_neg hne.symm]
    rcases current with _ | current
    · rcases previous with _ | previous
      · exact absurd rfl hne
      · exact .inr (.inl ⟨rfl, by simp, rfl⟩)
    · refine .inr (.inr ⟨current, rfl, hne, ?_⟩)
      split
      · next heq => cases heq
      · exact .inr rfl
      · exact .inl rfl

/-- The line tells something about what blocks the session. -/
def Message.isStatus : Message → Bool
  | .recovered | .attention _ _ | .blocked _ => true
  | .started _ | .stopped | .acted _ _ | .committed _ => false

section
variable [Texts] {ms : List Message} {previous : Option Blocker}
  {result result' : Except Sync.Error Report}

/-- The last status lines are those of what blocks the session after a reconciliation with this
result: a line for each state, or the failure. Where nothing blocks it, the last status line, if
there is one, is that it has recovered. Lines of earlier blockers may stand before. -/
structure Tells (ms : List Message) (result : Except Sync.Error Report) : Prop where
  last : blockerMessages result <:+ ms.filter Message.isStatus
  clear : blockerMessages result = [] → ∀ m ∈ (ms.filter Message.isStatus).getLast?, m = .recovered

/-- The last status lines are those of the blocker. -/
def Stands (ms : List Message) (blocker : Option Blocker) : Prop :=
  ∃ result, blockerOf result = blocker ∧ Tells ms result

/-- Before anything is printed nothing blocks the session. -/
theorem Stands.nil : Stands [] none :=
  ⟨.ok ⟨[], .synchronized⟩, rfl, List.suffix_refl [], fun _ m hm => by cases hm⟩

/-- Nothing is printed of a blocker exactly if there is none. -/
theorem blockerOf_eq_none : blockerOf result = none ↔ blockerMessages result = [] := by
  cases result with
  | error error => exact iff_of_false (Option.some_ne_none _) (List.cons_ne_nil _ _)
  | ok report =>
    simp only [blockerOf, blockerMessages, List.map_eq_nil_iff, List.isEmpty_iff]
    split
    · next hempty => exact iff_of_true rfl hempty
    · next hne => exact iff_of_false (Option.some_ne_none _) hne

/-- The blocker tells what is printed of it, as its lines tell the fragments and their states. So it
is enough to remember the blocker, and not the result it came from. -/
theorem blockerMessages_congr (h : blockerOf result = blockerOf result') :
    blockerMessages result = blockerMessages result' := by
  by_cases hnone : blockerOf result = none
  · rw [blockerOf_eq_none.1 hnone, blockerOf_eq_none.1 (h ▸ hnone)]
  · have hnone' := h ▸ hnone
    cases result with
    | error error =>
      cases result' with
      | error error' =>
        rw [blockerMessages, blockerMessages, Blocker.failure.inj (Option.some.inj h)]
      | ok report' =>
        simp only [blockerOf] at h
        split at h <;> cases h
    | ok report =>
      cases result' with
      | error error' =>
        simp only [blockerOf] at h
        split at h <;> cases h
      | ok report' =>
        simp only [blockerOf] at h hnone hnone'
        rw [if_neg fun hempty => hnone (if_pos hempty),
          if_neg fun hempty => hnone' (if_pos hempty)] at h
        rw [blockerMessages, blockerMessages,
          stateLine_injective.list_map (Blocker.states.inj (Option.some.inj h))]

/-- What stands of a blocker is told of every result with this blocker. -/
theorem Stands.tells (h : Stands ms (blockerOf result)) : Tells ms result := by
  obtain ⟨result₀, hsame, hlast, hclear⟩ := h
  rw [blockerMessages_congr hsame] at hlast hclear
  exact ⟨hlast, hclear⟩

omit [Texts] in
/-- What is done is no status line. Actions and written files are done whatever blocks the
session. -/
theorem filter_doneMessages (result : Except Sync.Error Report) :
    (doneMessages result).filter Message.isStatus = [] := by
  refine List.filter_eq_nil_iff.2 fun m hm => ?_
  cases result with
  | ok report =>
    obtain ⟨e, -, he⟩ := List.mem_filterMap.1 hm
    cases e with
    | state path found => cases he
    | action path found =>
      cases he
      exact Bool.false_ne_true
  | error error =>
    obtain ⟨path, -, rfl⟩ := List.mem_map.1 hm
    exact Bool.false_ne_true

/-- What is printed of a blocker are status lines. -/
theorem filter_blockerMessages (result : Except Sync.Error Report) :
    (blockerMessages result).filter Message.isStatus = blockerMessages result := by
  refine List.filter_eq_self.2 fun m hm => ?_
  cases result with
  | ok report =>
    obtain ⟨state, -, rfl⟩ := List.mem_map.1 hm
    rfl
  | error error =>
    obtain rfl := List.mem_singleton.1 hm
    rfl

/-- Behind the lines of a reconciliation the last status lines are those of what blocks the session
now. -/
theorem Stands.reconciliation (h : Stands ms previous) :
    Stands (ms ++ messages previous result) (blockerOf result) := by
  obtain ⟨result₀, rfl, hlast, hclear⟩ := h
  refine ⟨result, rfl, ?_⟩
  have hfilter : ∀ transition, (ms ++ (doneMessages result ++
      transitionMessages result transition)).filter Message.isStatus =
        ms.filter Message.isStatus ++
          (transitionMessages result transition).filter Message.isStatus := by
    intro transition
    rw [List.filter_append, List.filter_append, filter_doneMessages, List.nil_append]
  rw [messages]
  rcases blockerTransition_cases (blockerOf result₀) (blockerOf result) with
    ⟨hsame, htransition⟩ | ⟨hnone, -, htransition⟩ | ⟨blocker, hsome, -, htransition⟩
  · -- the lines of the same blocker are the last ones still
    rw [htransition]
    refine ⟨?_, fun hnil => ?_⟩
    · rw [hfilter, blockerMessages_congr hsame]
      exact (List.append_nil _).symm ▸ hlast
    · rw [blockerMessages_congr hsame] at hnil
      rw [hfilter]
      exact (List.append_nil _).symm ▸ hclear hnil
  · rw [htransition]
    refine ⟨blockerOf_eq_none.1 hnone ▸ List.nil_suffix, fun _ m hm => ?_⟩
    rw [hfilter, transitionMessages, List.filter_cons_of_pos rfl, List.filter_nil,
      List.getLast?_concat] at hm
    exact (Option.some.inj hm).symm
  · have hprinted : ∃ front, (transitionMessages result (blockerTransition (blockerOf result₀)
        (blockerOf result))).filter Message.isStatus = front ++ blockerMessages result := by
      rcases htransition with htransition | htransition
      · exact ⟨[], by rw [htransition, transitionMessages, filter_blockerMessages, List.nil_append]⟩
      · refine ⟨[.recovered], ?_⟩
        rw [htransition, transitionMessages, List.filter_cons_of_pos rfl, filter_blockerMessages,
          List.singleton_append]
    obtain ⟨front, hprinted⟩ := hprinted
    refine ⟨?_, fun hnil => ?_⟩
    · rw [hfilter, hprinted, ← List.append_assoc]
      exact List.suffix_append _ _
    · rw [blockerOf_eq_none.2 hnil] at hsome
      cases hsome

/-- Nothing is printed of a reconciliation that did nothing and left the blocker. The cases are the
transitions, and only the unchanged one prints nothing. -/
theorem messages_eq_nil : messages previous result = [] ↔
    doneMessages result = [] ∧ blockerOf result = previous := by
  rw [messages, List.append_eq_nil_iff, and_congr_right_iff]
  intro _
  rcases blockerTransition_cases previous (blockerOf result) with ⟨hsame, htransition⟩ |
    ⟨hnone, hprevious, htransition⟩ | ⟨blocker, hsome, hchanged, htransition⟩
  · rw [htransition]
    exact iff_of_true rfl hsame
  · rw [htransition]
    exact iff_of_false (List.cons_ne_nil _ _) fun hsame => hprevious (hsame.symm.trans hnone)
  · refine iff_of_false (fun hnil => ?_) hchanged
    rcases htransition with htransition | htransition
    · rw [htransition, transitionMessages, ← blockerOf_eq_none, hsome] at hnil
      cases hnil
    · rw [htransition] at hnil
      cases hnil

end

end Zwirn.Live
