import Zwirn.Sync.Report
import Zwirn.Sync.Status

/-!
# The command line

A one-shot command prints its report to standard output and exits with the state of the report, or
with status 2 after a failure. Where it does not fail, what it has printed determines its report,
the exit status included (`executeOneShot_determined`). The code is in `src/main.rs`.
-/

namespace Zwirn.Cli

open Lib Fragment Sync

/-! ## Commands -/

/-- The arguments that all commands have. -/
structure CommonArgs where
  sourceRoot : Option Path
  document : Path
  selectors : List FragmentPath

/-- The arguments of a command with a direction. -/
structure DirectionArgs where
  force : Bool
  common : CommonArgs

/-- The commands that do one thing and end. In the source they are arms of `Command`. -/
inductive OneShot
  | status (common : CommonArgs)
  | embed (args : DirectionArgs)
  | extract (args : DirectionArgs)
  | sync (common : CommonArgs)

/-- The request of a command, from the working directory of the process. -/
def CommonArgs.request (cwd : Path) (common : CommonArgs) (mode : Mode) : Request :=
  ⟨cwd, common.document, common.sourceRoot, common.selectors, mode⟩

/-- The request of a command. -/
def OneShot.request (cwd : Path) : OneShot → Request
  | .status common => common.request cwd .status
  | .embed args => args.common.request cwd (.mutate (.embed args.force))
  | .extract args => args.common.request cwd (.mutate (.extract args.force))
  | .sync common => common.request cwd (.mutate .sync)

/-! ## Output -/

/-- Lines that are buffered until they are flushed. -/
structure BufferedWriter (ω ε : Type) extends LineWriter ω ε where
  flush : Run ω ε Unit
  /-- The bytes that have left the buffer. -/
  delivered : ω → Bytes
  flushed : ∀ s t, flush s = (.ok (), t) → delivered t = printed (lines s)

/-- What a process works on. -/
structure Process (σ ω χ : Type) where
  disk : σ
  stdout : ω
  stderr : χ

section
variable {σ δ φ ω χ : Type} (out : BufferedWriter ω IoError) (err : LineWriter χ IoError)

/-- Writes a line to standard error. A failure is ignored. -/
def warn (line : Str) (p : Process σ ω χ) : Process σ ω χ :=
  { p with stderr := (err.writeLine ("zwirn: ".toList ++ line) p.stderr).2 }

/-- A process that fails says why, and its exit code is 2. -/
def fail (message : Str) (p : Process σ ω χ) : Nat × Process σ ω χ := (2, warn err message p)

/-- A failed run names the external files that it has written first, one line each, and then its
error. -/
def failEngine [Texts] (error : Error) (p : Process σ ω χ) : Nat × Process σ ω χ :=
  let warned := error.committedExternal.foldl (fun p path => warn err
    ("external file already written for `".toList ++ path.value ++ ['`']) p) p
  fail err (engineFailure error) warned

/-- Writes the lines of a report and flushes them. -/
def writeReport (report : Report) : Run ω IoError Unit := do
  out.writeLines (report.entries.map ReportEntry.line)
  out.flush

/-- A run that returned ends with the code of its exit state. A report that cannot be written is a
failure. -/
def finish [Texts] (report : Report) (p : Process σ ω χ) : Nat × Process σ ω χ :=
  match writeReport out report p.stdout with
  | (.ok (), stdout) => (report.exit.code, { p with stdout := stdout })
  | (.error error, stdout) =>
    fail err ("cannot write command output: ".toList ++ Texts.io error) { p with stdout := stdout }

variable [Sha256] [Texts] (fs : FileSystem σ δ φ)
  (coordinated : AccessPolicy σ CoordinatedAccessFailure)

/-- The process of a command: it executes the request, and then reports or fails. -/
def executeOneShot (request : Request) (p : Process σ ω χ) : Nat × Process σ ω χ :=
  match execute fs coordinated request p.disk with
  | (.ok report, disk) => finish out err report { p with disk := disk }
  | (.error error, disk) => failEngine err error { p with disk := disk }

end

/-! ## What a report is -/

/-- The entry asks for attention. -/
def NeedsAttention (e : ReportEntry) : Prop :=
  ∃ path found, e = .state path found ∧ found ≠ .synchronized

/-- A report as a mode makes it. -/
structure ReportOf (mode : Mode) (report : Report) : Prop where
  entries : ∀ e ∈ report.entries, mode.Reports e
  exit : report.exit = .attention ↔ ∃ e ∈ report.entries, NeedsAttention e

section
variable [Sha256] {σ δ φ ε : Type} {fs : FileSystem σ δ φ} {access : AccessPolicy σ ε}
  {request : Request} {s t : σ} {report : Report}

/-- Where a report comes from. A status is that of the selected entries, and a mutating command
reports what was prepared, whether or not there was something to commit. -/
theorem executeWithAccess_report (hrun : executeWithAccess fs access request s = (.ok report, t)) :
    (request.mode = .status ∧ ∃ selected, report = statusReport (classifyEntries selected)) ∨
    ∃ op, ∃ selected : List InventoryEntry, ∃ prepared, request.mode = .mutate op ∧
      PreparedFrom (selected.map (decideEntry op (selectionKind request.selectors))) prepared ∧
      report = ⟨prepared.reportEntries, exitState prepared.attention⟩ := by
  obtain ⟨paths, s₁, -, h₁⟩ := Run.bind_eq_ok.1 hrun
  obtain ⟨inventory, s₂, -, h₂⟩ := Run.bind_eq_ok.1 h₁
  obtain ⟨selected, s₃, -, h₃⟩ := Run.bind_eq_ok.1 h₂
  cases hmode : request.mode with
  | status =>
    rw [hmode] at h₃
    cases h₃
    exact .inl ⟨rfl, selected, rfl⟩
  | mutate op =>
    rw [hmode] at h₃
    obtain ⟨⟨prepared, output⟩, s₄, hprepared, h₄⟩ := Run.bind_eq_ok.1 h₃
    rw [operation_eq_ok] at hprepared
    obtain ⟨-, hprepare, -⟩ := prepareOutputs_eq_ok.1 hprepared.1
    refine .inr ⟨op, selected, prepared, rfl, prepare_eq_ok hprepare, ?_⟩
    by_cases hidle : prepared.extracted.isEmpty ∧ output.isNone
    · simp only [if_pos hidle] at h₄
      cases h₄
      rfl
    · simp only [if_neg hidle] at h₄
      obtain ⟨-, s₅, -, h₅⟩ := Run.bind_eq_ok.1 h₄
      cases h₅
      rfl

/-- The report of the status is one as this mode makes it. It holds states only, and it asks for
attention exactly if one of them is not synchronized. -/
theorem statusReport_of (selected : List InventoryEntry) :
    ReportOf .status (statusReport (classifyEntries selected)) := by
  refine ⟨fun e he => ?_, ?_⟩
  · rw [statusReport_entries] at he
    obtain ⟨entry, -, rfl⟩ := List.mem_map.1 he
    exact .status _ _
  · have hstate : ∀ c : Classification, c.state = .synchronized ↔ c = .synchronized := by
      intro c
      cases c <;> simp [Classification.state]
    have hexit := statusReport_exit selected
    rw [statusReport_entries]
    cases hfound : (statusReport (classifyEntries selected)).exit with
    | synchronized =>
      refine iff_of_false (by simp) ?_
      rintro ⟨e, he, path, found, rfl, hne⟩
      obtain ⟨entry, hentry, heq⟩ := List.mem_map.1 he
      cases heq
      exact hne ((hstate _).2 (hexit.1 hfound entry hentry))
    | attention =>
      refine iff_of_true rfl ?_
      by_contra hnone
      rw [hfound] at hexit
      refine absurd (hexit.2 fun entry hentry => (hstate _).1 ?_) (by simp)
      by_contra hne
      exact hnone ⟨_, List.mem_map_of_mem hentry, _, _, rfl, hne⟩

omit [Sha256] in
/-- What is synchronized is not left to the user. -/
theorem decision_ne {op : Operation} {selection : SelectionKind} {c : Classification} :
    decision op selection c ≠ .unresolved .synchronized := by
  rcases op with (_ | _) | (_ | _) | _ <;> rcases c with (_ | _) | _ | _ | _ | _ | _ | _ | _ <;>
    cases selection <;> decide

/-- So is the report of a mutating command, whatever was decided. A state in it is that of an
unresolved entry, and no decision leaves a synchronized one unresolved. -/
theorem preparedFrom_reportOf {op : Operation} {selection : SelectionKind}
    {selected : List InventoryEntry} {prepared : Prepared}
    (h : PreparedFrom (selected.map (decideEntry op selection)) prepared) :
    ReportOf (.mutate op) ⟨prepared.reportEntries, exitState prepared.attention⟩ := by
  have hentries : ∀ e ∈ prepared.reportEntries, ∃ entry, reportOf (decideEntry op selection entry) =
      some e := by
    intro e he
    rw [h.report] at he
    obtain ⟨d, hd, hreport⟩ := List.mem_filterMap.1 he
    obtain ⟨entry, -, rfl⟩ := List.mem_map.1 hd
    exact ⟨entry, hreport⟩
  refine ⟨fun e he => ?_, ?_⟩
  · obtain ⟨entry, hreport⟩ := hentries e he
    rw [reportOf_eq] at hreport
    exact .mutate hreport
  · rw [h.exit]
    refine exists_congr fun e => and_congr_right fun he => ?_
    obtain ⟨entry, hreport⟩ := hentries e he
    cases e with
    | action path action =>
      refine iff_of_false id ?_
      rintro ⟨path, found, heq, -⟩
      cases heq
    | state path found =>
      refine iff_of_true trivial ⟨path, found, rfl, ?_⟩
      rintro rfl
      rw [reportOf] at hreport
      cases hd : (decideEntry op selection entry).2 with
      | settled | act => rw [hd] at hreport; cases hreport
      | unresolved found =>
        rw [hd] at hreport
        cases hreport
        exact decision_ne hd

/-- The report of a command is one of its mode. -/
theorem executeWithAccess_reportOf
    (hrun : executeWithAccess fs access request s = (.ok report, t)) :
    ReportOf request.mode report := by
  rcases executeWithAccess_report hrun with ⟨hmode, selected, rfl⟩ |
    ⟨op, selected, prepared, hmode, hprepared, rfl⟩
  · rw [hmode]
    exact statusReport_of selected
  · rw [hmode]
    exact preparedFrom_reportOf hprepared

end

/-! ## What is printed of a report -/

/-- For one mode, what is printed of a report determines it. The lines give the entries one by one,
and the entries give the exit state. -/
theorem report_eq_of_lines {mode : Mode} {report report' : Report} (h : ReportOf mode report)
    (h' : ReportOf mode report')
    (hlines : report.entries.map ReportEntry.line = report'.entries.map ReportEntry.line) :
    report = report' := by
  have hentries : report.entries = report'.entries := by
    rw [← List.forall₂_eq_eq_eq] at hlines ⊢
    rw [List.forall₂_map_left_iff, List.forall₂_map_right_iff] at hlines
    have hboth := (List.forall₂_and_left _ _).2 ⟨h.entries, hlines⟩
    exact forall₂_of_mem_right hboth fun e e' he' hboth =>
      hboth.1.line_injective (h'.entries e' he') hboth.2
  obtain ⟨entries, exit⟩ := report
  obtain ⟨entries', exit'⟩ := report'
  cases hentries
  have hexit : exit = .attention ↔ exit' = .attention := h.exit.trans h'.exit.symm
  congr 1
  cases exit <;> cases exit' <;> simp at hexit ⊢

section
variable {ω χ : Type} {out : BufferedWriter ω IoError} {err : LineWriter χ IoError}

/-- A report that could be written has been delivered. -/
theorem writeReport_eq_ok {report : Report} {s t : ω}
    (h : writeReport out report s = (.ok (), t)) :
    out.delivered t = printed (out.lines s ++ report.entries.map ReportEntry.line) := by
  obtain ⟨_, u, hlines, hflush⟩ := Run.bind_eq_ok.1 h
  rw [out.flushed _ _ hflush, LineWriter.writeLines_eq_ok hlines]

variable [Sha256] [Texts] {σ δ φ : Type} {fs : FileSystem σ δ φ}
  {coordinated : AccessPolicy σ CoordinatedAccessFailure} {request : Request}
  {p q : Process σ ω χ} {code : Nat}

/-- A command that does not exit with status 2 has delivered its report and exits with its state. A
failed flush or a failed run would have made the exit code 2. -/
theorem executeOneShot_delivered
    (h : executeOneShot out err fs coordinated request p = (code, q)) (hcode : code ≠ 2) :
    ∃ report, execute fs coordinated request p.disk = (.ok report, q.disk) ∧
      code = report.exit.code ∧ q.stderr = p.stderr ∧
      out.delivered q.stdout =
        printed (out.lines p.stdout ++ report.entries.map ReportEntry.line) := by
  unfold executeOneShot at h
  split at h
  · next report disk hrun =>
    unfold finish at h
    split at h
    · next stdout hwritten =>
      cases h
      exact ⟨report, hrun, rfl, rfl, writeReport_eq_ok hwritten⟩
    · cases h
      exact absurd rfl hcode
  · cases h
    exact absurd rfl hcode

/-- What a command has printed determines its report. Two commands of the same kind that exit with
another status than 2 and deliver the same bytes, on whatever files, have the same report, and the
same exit status. -/
theorem executeOneShot_determined {σ' δ' φ' : Type} {fs' : FileSystem σ' δ' φ'}
    {coordinated' : AccessPolicy σ' CoordinatedAccessFailure} {request' : Request}
    {p' q' : Process σ' ω χ} {code' : Nat} (hmode : request'.mode = request.mode)
    (h : executeOneShot out err fs coordinated request p = (code, q))
    (h' : executeOneShot out err fs' coordinated' request' p' = (code', q'))
    (hcode : code ≠ 2) (hcode' : code' ≠ 2) (hnone : out.lines p.stdout = [])
    (hnone' : out.lines p'.stdout = [])
    (hsame : out.delivered q'.stdout = out.delivered q.stdout) :
    ∃ report, execute fs coordinated request p.disk = (.ok report, q.disk) ∧
      execute fs' coordinated' request' p'.disk = (.ok report, q'.disk) ∧ code' = code := by
  obtain ⟨report, hrun, rfl, -, hdelivered⟩ := executeOneShot_delivered h hcode
  obtain ⟨report', hrun', rfl, -, hdelivered'⟩ := executeOneShot_delivered h' hcode'
  have hof := executeWithAccess_reportOf (Run.mapError_eq_ok.1 hrun)
  have hof' := executeWithAccess_reportOf (Run.mapError_eq_ok.1 hrun')
  rw [hmode] at hof'
  have hplain : ∀ (report : Report), ∀ line ∈ report.entries.map ReportEntry.line, '\n' ∉ line := by
    intro report
    rw [List.forall_mem_map]
    exact fun e _ => e.not_mem_newline
  rw [hdelivered, hdelivered', hnone, hnone', List.nil_append, List.nil_append] at hsame
  obtain rfl := report_eq_of_lines hof' hof (printed_injective (hplain _) (hplain _) hsame)
  exact ⟨report', hrun, hrun', rfl⟩

end

/-! ## Samples -/

/-- Lines whose bytes are delivered as soon as they are written. -/
def sampleOutput : BufferedWriter (List Str) IoError :=
  { sampleWriter with
    flush := pure ()
    delivered := printed
    flushed := fun _ _ h => by cases h; rfl }

/-- A process over a tree, which has printed nothing yet. -/
def sampleProcess (t : Tree) : Process Tree (List Str) (List Str) := ⟨t, [], []⟩

/-- What a command on the sample trees does. -/
def runSample (command : OneShot) (t : Tree) : Nat × Process Tree (List Str) (List Str) :=
  @executeOneShot _ _ _ _ _ sampleOutput sampleWriter lfDigest sampleTexts (treeFilesystem [])
    sampleAccess (command.request ⟨true, []⟩) (sampleProcess t)

/-- The status of the sample document. -/
def sampleStatus : OneShot := .status ⟨none, ⟨false, [sampleDocumentName]⟩, []⟩

/-- Status prints the same before and after another file is written. The file is the target of no
fragment, so the reports are the same. -/
theorem executeOneShot_determined_sample :
    let t := sampleTree
    let t' := sampleTree.setContent [['q']] [10]
    ∃ report, @execute lfDigest _ _ _ (treeFilesystem []) sampleAccess
        (sampleStatus.request ⟨true, []⟩) t = (.ok report, (runSample sampleStatus t).2.disk) ∧
      @execute lfDigest _ _ _ (treeFilesystem []) sampleAccess
        (sampleStatus.request ⟨true, []⟩) t' = (.ok report, (runSample sampleStatus t').2.disk) ∧
      (runSample sampleStatus t').1 = (runSample sampleStatus t).1 := by
  let _ : Sha256 := lfDigest
  let _ : Texts := sampleTexts
  intro t t'
  have hrun : ∀ u, executeOneShot sampleOutput sampleWriter (treeFilesystem []) sampleAccess
      (sampleStatus.request ⟨true, []⟩) (sampleProcess u) =
        ((runSample sampleStatus u).1, (runSample sampleStatus u).2) := fun u => rfl
  exact executeOneShot_determined rfl (hrun t) (hrun t') (by decide +kernel) (by decide +kernel) rfl
    rfl (by decide +kernel)

end Zwirn.Cli
