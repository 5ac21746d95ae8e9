import Zwirn.Sync.Along
import Zwirn.Sync.Stages

/-!
# The order of effects

A command is run over a filesystem and an access policy that record what is attempted, in order,
and how it ended. Whatever fails, reads come before writes, writes come in path order with the
document last, nothing follows a failure, and the failure reports exactly the completed writes:
`executeLogged_exact`. Recording changes nothing else of the command (`executeLogged_along`).
-/

namespace Zwirn.Sync

open Lib Fragment

/-! ## Events -/

/-- What a command attempts, recorded when it has ended. Of a write it also tells how it ended. -/
inductive Event
  /-- A named access, and whether it was granted. -/
  | access (kind : AccessKind) (path : Path) (granted : Bool)
  /-- A lookup, or the opening of a file for reading. -/
  | probe
  /-- The reading of a file's content. -/
  | read
  /-- A single operation that may change the filesystem. -/
  | change
  /-- The creation of a target's parent directories, and whether it succeeded. -/
  | createDir (path : Path) (succeeded : Bool)
  /-- The body of the write of an external output, and what it returned. -/
  | writeExternal (path : FragmentPath) (result : Except IoError (Option FragmentPath))
  /-- The body of the write of the document, and whether it succeeded. -/
  | writeDocument (path : Path) (succeeded : Bool)

namespace Event

/-- The content of a file is read, or was to be read. -/
def Reads : Event → Prop
  | .read | .access .read _ _ => True
  | _ => False

/-- The filesystem may be changed. -/
def Mutates : Event → Prop
  | .change | .createDir _ _ | .writeExternal _ _ | .writeDocument _ _ => True
  | _ => False

/-- The body of the document's write has run. -/
def WritesDocument : Event → Prop
  | .writeDocument _ _ => True
  | _ => False

/-- The command cannot go on. -/
def Failed : Event → Prop
  | .access _ _ succeeded | .createDir _ succeeded | .writeDocument _ succeeded => ¬ succeeded
  | .writeExternal _ result => result ≠ .ok none
  | _ => False

/-- The output that was attempted to be written. -/
def external : Event → Option FragmentPath
  | .writeExternal path _ => some path
  | _ => none

/-- The output that was completely written, whatever its alias check found. -/
def completed : Event → Option FragmentPath
  | .writeExternal path (.ok _) => some path
  | _ => none

/-- The event belongs to discovery. -/
def Inspects : Event → Prop
  | .probe | .read | .access .read _ _ => True
  | _ => False

/-- The event is a single operation on the filesystem that reads no content. -/
def Single : Event → Prop
  | .probe | .change => True
  | _ => False

/-- A single operation does not stop the command by itself, since it is part of something larger. -/
theorem Single.not_failed : ∀ e : Event, e.Single → ¬ e.Failed := by
  intro e h
  cases e with
  | probe | change => exact not_false
  | _ => cases h

/-- The event belongs to the writing of external outputs. -/
def Extracts : Event → Prop
  | .probe | .change | .createDir _ _ | .writeExternal _ _ | .access .write _ _ => True
  | _ => False

/-- An attempt that does not fail completes. -/
theorem completed_eq_external {e : Event} (h : ¬ e.Failed) : e.completed = e.external := by
  cases e with
  | writeExternal path result =>
    obtain rfl : result = .ok none := by simpa [Failed] using h
    rfl
  | _ => rfl

end Event

/-! ## Recording -/

section
variable {σ δ φ ε : Type}

/-- The filesystem with its operations recorded. A lookup is a probe, so that only the reading of
contents counts as reading. -/
def FileSystem.logged (fs : FileSystem σ δ φ) : FileSystem (σ × List Event) δ φ where
  openAmbientDir path := (fs.openAmbientDir path).log fun _ => .probe
  dirMetadata dir path := (fs.dirMetadata dir path).log fun _ => .probe
  dirOpen dir path := (fs.dirOpen dir path).log fun _ => .probe
  dirOpenWith dir path options := (fs.dirOpenWith dir path options).log fun _ => .change
  dirCreateDirAll dir path := (fs.dirCreateDirAll dir path).log fun _ => .change
  fileOpen path := (fs.fileOpen path).log fun _ => .probe
  fileMetadata file := (fs.fileMetadata file).log fun _ => .probe
  readToEnd file := (fs.readToEnd file).log fun _ => .read
  writeAll file bytes := (fs.writeAll file bytes).log fun _ => .change
  write path bytes := (fs.write path bytes).log fun _ => .change

/-- The access policy with its decisions recorded. -/
def AccessPolicy.logged (access : AccessPolicy σ ε) : AccessPolicy (σ × List Event) ε where
  grant kind path := (access.grant kind path).log fun r => .access kind path r.isOk

/-- The effects of a commit, recorded behind what they record themselves. The single operations of a
write come first, and then the write as a whole. -/
def CommitFilesystem.logged (filesystem : CommitFilesystem (σ × List Event)) :
    CommitFilesystem (σ × List Event) where
  externalDestination := filesystem.externalDestination
  createDirAll path := (filesystem.createDirAll path).tap fun r => .createDir path r.isOk
  writeExternal path bytes write absentTargets :=
    (filesystem.writeExternal path bytes write absentTargets).tap fun r => .writeExternal path r
  writeDocument path bytes :=
    (filesystem.writeDocument path bytes).tap fun r => .writeDocument path r.isOk

/-- Without the log, the recorded operations are those of the filesystem. -/
theorem FileSystem.logged_along (fs : FileSystem σ δ φ) : fs.logged.Along Prod.fst fs :=
  ⟨fun _ => .log _ _, fun _ _ => .log _ _, fun _ _ => .log _ _, fun _ _ _ => .log _ _,
    fun _ _ => .log _ _, fun _ => .log _ _, fun _ => .log _ _, fun _ => .log _ _,
    fun _ _ => .log _ _, fun _ _ => .log _ _⟩

/-- Without the log, the recorded policy grants what the policy grants. -/
theorem AccessPolicy.logged_along (access : AccessPolicy σ ε) : access.logged.Along Prod.fst access :=
  fun _ _ => .log _ _

/-- What the effects of a commit record in addition makes no difference without the log. -/
theorem CommitFilesystem.logged_along {filesystem : CommitFilesystem (σ × List Event)}
    {filesystem' : CommitFilesystem σ} (h : filesystem.Along Prod.fst filesystem') :
    filesystem.logged.Along Prod.fst filesystem' :=
  ⟨h.externalDestination, fun path => (h.createDirAll path).tap _,
    fun path bytes write absentTargets => (h.writeExternal path bytes write absentTargets).tap _,
    fun path bytes => (h.writeDocument path bytes).tap _⟩

end

/-! ## Discovery -/

section
variable {σ δ φ ε ε' α : Type} {fs : FileSystem σ δ φ} {access : AccessPolicy σ ε}

/-- A run that only inspects, and stops at a failed access. -/
abbrev Inspects (x : Run (σ × List Event) ε' α) : Prop := Emits (Only Event.Inspects Event.Failed) x

/-- A run of single reading operations. -/
abbrev Reads (x : Run (σ × List Event) ε' α) : Prop :=
  Emits (Only (fun e => e = .probe ∨ e = .read) Event.Failed) x

/-- Reading is inspecting. -/
theorem Reads.inspects {x : Run (σ × List Event) ε' α} (h : Reads x) : Inspects x :=
  h.mono fun _ _ h => h.mono fun e he => by rcases he with rfl | rfl <;> trivial

/-- A probe reads, -/
theorem Reads.probe (x : Run σ ε' α) : Reads (x.log fun _ => Event.probe) :=
  Emits.log fun _ => .singleton (.inl rfl) fun _ _ => not_false

/-- and so does reading a file. -/
theorem Reads.read (x : Run σ ε' α) : Reads (x.log fun _ => Event.read) :=
  Emits.log fun _ => .singleton (.inr rfl) fun _ _ => not_false

/-- Returning does nothing at all, -/
theorem Reads.pure (a : α) : Reads (pure a : Run (σ × List Event) ε' _) := Emits.pure _ (.nil _)

/-- and neither does failing. -/
theorem Reads.fail (e : ε') : Reads (.fail e : Run (σ × List Event) _ α) := Emits.fail _ (.nil _)

/-- What is attempted reads as it does otherwise. That its failure does not stop the run makes no
difference, since no reading operation counts as a failure. -/
theorem Reads.attempt {x : Run (σ × List Event) ε' α} (h : Reads x) :
    Reads (x.attempt : Run _ ε _) :=
  emits_only_attempt (fun e he => by rcases he with rfl | rfl <;> exact not_false) h

/-- Reading operations may follow one another, -/
theorem Reads.bind {β : Type} {x : Run (σ × List Event) ε' α} {f : α → Run (σ × List Event) ε' β}
    (hx : Reads x) (hf : ∀ a, Reads (f a)) : Reads (x >>= f) := emits_only_bind hx hf

/-- and their errors may be named in another way. -/
theorem Reads.mapError {f : ε' → ε} {x : Run (σ × List Event) ε' α} (h : Reads x) :
    Reads (x.mapError f) := emits_only_mapError h

/-- Inspecting runs may follow one another. A refused access ends the first one, and then the second
one does not begin. -/
theorem Inspects.bind {β : Type} {x : Run (σ × List Event) ε' α}
    {f : α → Run (σ × List Event) ε' β} (hx : Inspects x) (hf : ∀ a, Inspects (f a)) :
    Inspects (x >>= f) := emits_only_bind hx hf

/-- An ordinary step leaves nothing in the log. -/
theorem Inspects.operation (x : Except ε' α) :
    Inspects (operation x : Run (σ × List Event) (PolicyFailure ε ε') α) := Emits.ofExcept _ (.nil _)

/-- Nor does returning. -/
theorem Inspects.pure (a : α) : Inspects (pure a : Run (σ × List Event) ε' _) := Emits.pure _ (.nil _)

/-- A granted access with its body, where a refusal ends the run. -/
theorem emits_access {P : Event → Prop} {kind : AccessKind} {path : Path}
    {body : Run (σ × List Event) ε' α} (hgrant : ∀ granted, P (.access kind path granted))
    (hbody : Emits (Only P Event.Failed) (body.attempt : Run _ ε _)) :
    Emits (Only P Event.Failed) (access.logged.around kind path body) := by
  refine emits_only_bind (Emits.log fun r => .singleton (hgrant _) fun u hu => ?_) fun _ => hbody
  rw [hu]
  exact not_not_intro rfl

/-- Reading under a read access is inspecting. -/
theorem Reads.accessed {path : Path} {body : Run (σ × List Event) ε' α} (h : Reads body) :
    Inspects (flatten (access.logged.read path body)) := by
  refine emits_only_bind (emits_only_mapError (emits_access (fun _ => trivial) ?_)) fun result =>
    Emits.ofExcept _ (.nil _)
  exact h.attempt.inspects

/-- A directory is checked by a probe. -/
theorem validateOptionalDirectory_reads (root : SourceRoot δ) (path : Path) :
    Reads (validateOptionalDirectory fs.logged root path) := by
  refine (Reads.probe _).attempt.bind fun metadata => ?_
  split
  · split
    · exact .pure _
    · exact .fail _
  · split
    · exact .pure _
    · exact .fail _

/-- The directories above a target are checked by probes. The induction is on the segments that are
left. -/
theorem validateParentsFrom_reads (root : SourceRoot δ) (path : FragmentPath)
    (parent segments : List Str) : Reads (validateParentsFrom fs.logged root path parent segments) := by
  induction segments generalizing parent with
  | nil => exact .pure _
  | cons segment segments ih =>
    exact (validateOptionalDirectory_reads root _).mapError.bind fun _ => ih _

/-- So are all of them. -/
theorem validateParents_reads (root : SourceRoot δ) (path : FragmentPath) :
    Reads (validateParents fs.logged root path) := by
  unfold validateParents
  split
  · exact validateParentsFrom_reads root path _ _
  · exact .pure _

/-- An opened target is probed once more and then read. -/
theorem readTarget_reads (path : FragmentPath) (target : Path) (file : φ) :
    Reads (readTarget fs.logged path target file) := by
  refine (Reads.probe _).mapError.bind fun metadata => ?_
  split
  · exact .fail _
  · exact (Reads.read _).mapError.bind fun _ => .pure _

/-- A target is probed, opened and read. A target that is absent is only probed. -/
theorem readOptionalTarget_reads (root : SourceRoot δ) (path : FragmentPath) (target : Path) :
    Reads (readOptionalTarget fs.logged root path target) := by
  refine (Reads.probe _).attempt.bind fun metadata => ?_
  split
  · split
    · exact .pure _
    · exact .fail _
  · split
    · exact .fail _
    · refine (Reads.probe _).attempt.bind fun file => ?_
      split
      · split
        · exact .pure _
        · exact .fail _
      · exact readTarget_reads path target _

/-- So is the document. -/
theorem readDocument_reads (path : Path) : Reads (readDocument fs.logged path) :=
  (Reads.probe _).mapError.bind fun _ => (Reads.probe _).mapError.bind fun _ =>
    (Reads.read _).mapError.bind fun _ => .pure _

/-- One round of the discovery only inspects. -/
theorem discoverEntry_inspects (root : SourceRoot δ) (origin : Option DocumentOrigin)
    (identities : OrdMap FileIdentity FragmentPath) (fragment : DiscoveredFragment) :
    Inspects (discoverEntry fs.logged access.logged root origin identities fragment) := by
  refine .bind (validateParents_reads root _).mapError.inspects fun _ =>
    .bind (.operation _) fun _ => .bind (readOptionalTarget_reads root _ _).accessed fun input => ?_
  split
  · exact .pure _
  · exact .bind (.operation _) fun _ => .pure _

/-- So do all rounds, by induction on the fragments. -/
theorem discoverEntries_inspects (root : SourceRoot δ) (origin : Option DocumentOrigin)
    (identities : OrdMap FileIdentity FragmentPath) (fragments : List DiscoveredFragment) :
    Inspects (discoverEntries fs.logged access.logged root origin identities fragments) := by
  induction fragments generalizing identities with
  | nil => exact .pure _
  | cons fragment fragments ih =>
    exact .bind (discoverEntry_inspects root origin identities fragment) fun _ =>
      .bind (ih _) fun _ => .pure _

/-- So does the discovery of a document, -/
theorem discoverForDocument_inspects (sourceRoot documentPath : Path) :
    Inspects (Inventory.discoverForDocument fs.logged sourceRoot documentPath access.logged) := by
  refine .bind (Reads.mapError (Reads.mapError (.bind (.probe _) fun _ => .pure _))).inspects
    fun root => .bind (readDocument_reads _).accessed fun document => ?_
  exact .bind (.operation _) fun _ => .bind (.operation _) fun _ =>
    .bind (discoverEntries_inspects _ _ _ _) fun _ => .pure _

/-- and everything a request does before it decides anything. -/
theorem discoverRequest_inspects (request : Request) :
    Inspects (discoverRequest fs.logged access.logged request) :=
  .bind (.operation _) fun _ => .bind (emits_only_mapError (discoverForDocument_inspects _ _))
    fun _ => .pure _

end

/-! ## The commit -/

section
variable {σ δ φ ε ε' α : Type} {fs : FileSystem σ δ φ} {access : AccessPolicy σ ε}

/-- A run of single operations. -/
abbrev Singles (x : Run (σ × List Event) ε' α) : Prop := Emits (Only Event.Single Event.Failed) x

/-- The effects of a commit are made of single operations. -/
structure CommitFilesystem.MadeOfSingles (filesystem : CommitFilesystem (σ × List Event)) :
    Prop where
  createDirAll : ∀ path, Singles (filesystem.createDirAll path)
  writeExternal : ∀ path bytes write absentTargets,
    Singles (filesystem.writeExternal path bytes write absentTargets)
  writeDocument : ∀ path bytes, Singles (filesystem.writeDocument path bytes)

/-- A probe is a single operation, -/
theorem Singles.probe (x : Run σ ε' α) : Singles (x.log fun _ => Event.probe) :=
  Emits.log fun _ => .singleton trivial fun _ _ => not_false

/-- and so is a change. -/
theorem Singles.change (x : Run σ ε' α) : Singles (x.log fun _ => Event.change) :=
  Emits.log fun _ => .singleton trivial fun _ _ => not_false

/-- Single operations may follow one another. -/
theorem Singles.bind {β : Type} {x : Run (σ × List Event) ε' α}
    {f : α → Run (σ × List Event) ε' β} (hx : Singles x) (hf : ∀ a, Singles (f a)) :
    Singles (x >>= f) := emits_only_bind hx hf

/-- Returning does nothing at all. -/
theorem Singles.pure (a : α) : Singles (pure a : Run (σ × List Event) ε' _) := Emits.pure _ (.nil _)

/-- The identity of a target takes a probe. -/
theorem targetIdentity_singles (root : SourceRoot δ) (path : FragmentPath) :
    Singles (root.targetIdentity fs.logged path) :=
  .bind (.probe _) fun _ => .pure _

/-- The search for another target takes a probe for each candidate. The induction is on the
candidates. -/
theorem findAlias_singles (root : SourceRoot δ) (path : FragmentPath) (identity : FileIdentity)
    (candidates : List FragmentPath) :
    Singles (root.findAlias fs.logged path identity candidates) := by
  induction candidates with
  | nil => exact .pure _
  | cons candidate candidates ih =>
    unfold SourceRoot.findAlias
    split
    · refine .bind (emits_only_attempt Event.Single.not_failed (targetIdentity_singles root _))
        fun probe => ?_
      split
      · exact .pure _
      · exact ih
    · exact ih

/-- The effects of a commit on a filesystem are made of its single operations. Creation, truncation
and the write of the document are sequences of them. -/
theorem realFilesystem_singles (root : SourceRoot δ) :
    (realFilesystem fs.logged root).MadeOfSingles := by
  constructor
  case createDirAll => exact fun path => Singles.change _
  case writeDocument => exact fun path bytes => Singles.change _
  case writeExternal =>
    intro path bytes write absentTargets
    cases write with
    | createNew =>
      exact .bind (.change _) fun _ => .bind (.probe _) fun _ => .bind (.change _) fun _ =>
        findAlias_singles root _ _ _
    | createOrTruncate =>
      exact .bind (.bind (.change _) fun _ => .change _) fun _ => .pure _

/-- What a write under an access records: a refusal, or the single operations of its body, and the
body's outcome behind them. -/
inductive WriteLog (path : Path) (event : Except ε' α → Event) :
    List Event → Except (PolicyFailure ε ε') α → Prop
  | refused (e : ε) : WriteLog path event [.access .write path false] (.error (.access e))
  | ran (es : List Event) (r : Except ε' α) (h : ∀ e ∈ es, e.Single) :
    WriteLog path event (.access .write path true :: (es ++ [event r])) (mapError .operation r)

/-- A write leaves its access in the log, and where that was granted the operations of its body and
the event of the body's end. -/
theorem emits_write {path : Path} {body : Run (σ × List Event) ε' α} (h : Singles body)
    (event : Except ε' α → Event) :
    Emits (WriteLog path event) (flatten (access.logged.write path (body.tap event))) := by
  intro s
  obtain ⟨es, hes, honly⟩ := h (((access.grant .write path s.1).2,
    s.2 ++ [.access .write path (access.grant .write path s.1).1.isOk]))
  unfold AccessPolicy.write
  rw [flatten_around]
  cases hgrant : access.grant .write path s.1 with
  | mk r t =>
    have hlogged : access.logged.grant .write path s =
        (r, (t, s.2 ++ [.access .write path r.isOk])) := by
      simp only [AccessPolicy.logged, Run.log, Run.tap, Run.beside, hgrant]
    rw [hgrant] at hes honly
    rw [hlogged]
    cases r with
    | error e => exact ⟨_, rfl, .refused e⟩
    | ok u =>
      refine ⟨_, ?_, .ran es _ honly.all⟩
      show (body _).2.2 ++ _ = _
      rw [show (body _).2.2 = _ from hes]
      simp [Except.isOk, Except.toBool]
      rfl

/-- The writes that a failed commit reports. -/
def commitCompleted : PolicyFailure (CommitAccessFailure ε) CommitError → List FragmentPath
  | .access failure => failure.completed
  | .operation error => error.completed

/-- What the writing of external outputs records, behind the `completed` ones: the attempts are in
the order of `paths`, and what fails reports what was completed. -/
structure Extraction (completed paths : List FragmentPath) (es : List Event)
    (r : Except (PolicyFailure (CommitAccessFailure ε) CommitError) α) : Prop where
  only : Only Event.Extracts Event.Failed es r
  attempted : es.filterMap Event.external <+: paths
  finished : ∀ a, r = .ok a → es.filterMap Event.external = paths
  reported : ∀ failure, r = .error failure →
    commitCompleted failure = completed ++ es.filterMap Event.completed

variable {completed : List FragmentPath}

/-- An extraction that returned has completed all its outputs. -/
theorem Extraction.completed_eq {paths : List FragmentPath} {es : List Event}
    {r : Except (PolicyFailure (CommitAccessFailure ε) CommitError) α}
    (h : Extraction completed paths es r) {a : α} (hr : r = .ok a) :
    es.filterMap Event.completed = paths := by
  rw [← h.finished a hr]
  exact List.filterMap_congr fun e he => Event.completed_eq_external (h.only.returned a hr e he)

/-- The writing of more outputs behind a finished one. Their events come behind those of the outputs
before. -/
theorem Extraction.append {β : Type} {paths paths' : List FragmentPath} {es es' : List Event}
    {a : α} {r : Except (PolicyFailure (CommitAccessFailure ε) CommitError) β}
    (h : Extraction completed paths es
      (.ok a : Except (PolicyFailure (CommitAccessFailure ε) CommitError) α))
    (h' : Extraction (completed ++ paths) paths' es' r) :
    Extraction completed (paths ++ paths') (es ++ es') r := by
  refine ⟨h.only.append h'.only, ?_, ?_, ?_⟩
  · rw [List.filterMap_append, h.finished a rfl]
    exact List.prefix_append_right_inj _ |>.2 h'.attempted
  · intro b hr
    rw [List.filterMap_append, h.finished a rfl, h'.finished b hr]
  · intro failure hr
    rw [h'.reported failure hr, List.filterMap_append, h.completed_eq rfl, List.append_assoc]

/-- A failure leaves the later outputs unwritten. -/
theorem Extraction.error {β : Type} {paths : List FragmentPath} {es : List Event}
    {failure : PolicyFailure (CommitAccessFailure ε) CommitError}
    (h : Extraction completed paths es
      (.error failure : Except (PolicyFailure (CommitAccessFailure ε) CommitError) α))
    (paths' : List FragmentPath) : Extraction completed (paths ++ paths') es
      (.error failure : Except (PolicyFailure (CommitAccessFailure ε) CommitError) β) :=
  ⟨h.only.error _, h.attempted.trans (List.prefix_append _ _), fun a hr => by simp at hr,
    fun failure' hr => h.reported failure' (by simpa using hr)⟩

/-- Events that attempt no output. They leave the outputs that are still to be attempted as they
were. -/
theorem Extraction.of_quiet {es : List Event}
    {r : Except (PolicyFailure (CommitAccessFailure ε) CommitError) α}
    (h : Only Event.Extracts Event.Failed es r) (hes : ∀ e ∈ es, e.external = none)
    (hr : ∀ failure, r = .error failure → commitCompleted failure = completed) :
    Extraction completed [] es r := by
  have hext : es.filterMap Event.external = [] := List.filterMap_eq_nil_iff.2 hes
  have hcompleted : es.filterMap Event.completed = [] := by
    refine List.filterMap_eq_nil_iff.2 fun e he => ?_
    have hnone := hes e he
    cases e with
    | writeExternal path result => cases hnone
    | _ => rfl
  refine ⟨h, by rw [hext], fun _ _ => hext, fun failure hf => ?_⟩
  rw [hr failure hf, hcompleted, List.append_nil]

variable {filesystem : CommitFilesystem (σ × List Event)}

/-- A single operation may be part of an extraction, and does not stop it. -/
theorem Event.Single.extracts {e : Event} (h : e.Single) : e.Extracts ∧ ¬ e.Failed := by
  refine ⟨?_, h.not_failed e⟩
  cases e with
  | probe | change => trivial
  | _ => cases h

/-- It is no attempt of an output. -/
theorem Event.Single.external {e : Event} (h : e.Single) : e.external = none := by
  cases e with
  | probe | change => rfl
  | _ => cases h

/-- The creation of the parent directories of an output attempts no output. A failure of it ends the
command with the outputs that were completed before. -/
theorem createParent_extraction (hfs : filesystem.MadeOfSingles) (completed : List FragmentPath)
    (path : Path) (error : IoError → CommitFailure) :
    Emits (Extraction completed []) ((filesystem.logged.createDirAll path).mapError fun source =>
      (.operation ((error source).after completed) :
        PolicyFailure (CommitAccessFailure ε) CommitError)) := by
  refine Emits.mapError ?_
  show Emits _ ((filesystem.createDirAll path).tap fun r => Event.createDir path r.isOk)
  refine (Emits.tap (hfs.createDirAll path)).mono fun es r h => ?_
  obtain ⟨es, rfl, h⟩ := h
  refine .of_quiet (.concat (fun e he => (h.all e he).extracts) trivial ?_) ?_ ?_
  · intro u hu
    cases r with
    | ok u => exact not_not_intro rfl
    | error e => cases hu
  · intro e he
    rcases List.mem_append.1 he with he | he
    · exact (h.all e he).external
    · rw [List.mem_singleton.1 he]
      rfl
  · intro failure hfailure
    cases r with
    | ok u => cases hfailure
    | error e => cases hfailure; rfl

/-- The outputs are attempted in order, and those that return are completed. -/
structure Extracted (completed paths : List FragmentPath) (es : List Event)
    (r : Except (PolicyFailure (CommitAccessFailure ε) CommitError) (List FragmentPath)) : Prop
    extends Extraction completed paths es r where
  value : ∀ completed', r = .ok completed' → completed' = completed ++ paths

/-- What follows from the outcome of the write of an output. -/
def afterWrite (completed : List FragmentPath) (path : FragmentPath) :
    Option FragmentPath →
      Except (PolicyFailure (CommitAccessFailure ε) CommitError) (List FragmentPath)
  | some otherPath => .error (.operation
      ((CommitFailure.createdTargetAlias path otherPath).after (completed ++ [path])))
  | none => .ok (completed ++ [path])

/-- An output whose write was refused. -/
theorem Extracted.refused (path : FragmentPath) (destination : Path)
    (failure : PolicyFailure (CommitAccessFailure ε) CommitError)
    (h : commitCompleted failure = completed) :
    Extracted completed [path] [.access .write destination false] (.error failure) where
  only := .singleton trivial fun _ hr => by cases hr
  attempted := List.nil_prefix
  finished := fun _ hr => by cases hr
  reported := fun failure' hr => by cases hr; simp [h, Event.completed]
  value := fun _ hr => by cases hr

/-- An output whose write was attempted. It is completed exactly if its body returned, even where
the new file was found to be another target. -/
theorem Extracted.ran (completed : List FragmentPath) (path : FragmentPath) (destination : Path)
    {es : List Event} (hes : ∀ e ∈ es, e.Single) (result : Except IoError (Option FragmentPath))
    (failure : IoError → CommitFailure) :
    Extracted completed [path]
      (.access .write destination true :: (es ++ [.writeExternal path result]))
      ((mapError (fun e => (.operation ((failure e).after completed) :
        PolicyFailure (CommitAccessFailure ε) CommitError)) result).bind
          (afterWrite completed path)) := by
  have hext : es.filterMap Event.external = [] :=
    List.filterMap_eq_nil_iff.2 fun e he => (hes e he).external
  have hcompleted : es.filterMap Event.completed = [] :=
    List.filterMap_eq_nil_iff.2 fun e he => by
      rw [Event.completed_eq_external (hes e he).extracts.2, (hes e he).external]
  have hattempted : (Event.access .write destination true ::
      (es ++ [.writeExternal path result])).filterMap Event.external = [path] := by
    rw [List.filterMap_cons_none rfl, List.filterMap_append, hext]
    rfl
  have hreported : (Event.access .write destination true ::
      (es ++ [.writeExternal path result])).filterMap Event.completed =
        (Event.writeExternal path result).completed.toList := by
    rw [List.filterMap_cons_none rfl, List.filterMap_append, hcompleted]
    cases result <;> rfl
  have hfront : ∀ e ∈ Event.access .write destination true :: es, e.Extracts ∧ ¬ e.Failed := by
    rw [List.forall_mem_cons]
    exact ⟨⟨trivial, not_not_intro rfl⟩, fun e he => (hes e he).extracts⟩
  refine ⟨⟨.concat hfront trivial ?_, by rw [hattempted], fun _ _ => hattempted, ?_⟩, ?_⟩
  · intro a ha hfailed
    cases result with
    | error e => cases ha
    | ok other =>
      cases other with
      | some other => cases ha
      | none => exact hfailed rfl
  · intro failure' hr
    rw [hreported]
    cases result with
    | error e => cases hr; exact (List.append_nil _).symm
    | ok other =>
      cases other with
      | none => cases hr
      | some other => cases hr; rfl
  · intro completed' hr
    cases result with
    | error e => cases hr
    | ok other =>
      cases other with
      | none => cases hr; rfl
      | some other => cases hr

/-- The write of an output is attempted when its access is granted, and it is completed when its
body returns. -/
theorem writeExternal_extracted (hfs : filesystem.MadeOfSingles)
    (absentTargets completed : List FragmentPath) (output : ExternalOutput) (destination : Path) :
    Emits (Extracted completed [output.path])
      ((flatten (access.logged.write destination (filesystem.logged.writeExternal output.path
        output.bytes output.write absentTargets))).mapError
          (commitFailure completed (.writeExternal output.path destination)) >>= fun aliasedTarget =>
            match aliasedTarget with
            | some otherPath => .fail (.operation
                ((CommitFailure.createdTargetAlias output.path otherPath).after
                  (completed ++ [output.path])))
            | none => pure (completed ++ [output.path])) := by
  have hafter : (fun aliasedTarget => match aliasedTarget with
      | some otherPath => Run.fail (.operation
          ((CommitFailure.createdTargetAlias output.path otherPath).after
            (completed ++ [output.path])))
      | none => pure (completed ++ [output.path])) = fun aliasedTarget =>
        (Run.ofExcept (afterWrite completed output.path aliasedTarget) :
          Run (σ × List Event) (PolicyFailure (CommitAccessFailure ε) CommitError) _) := by
    funext aliasedTarget
    cases aliasedTarget <;> rfl
  rw [hafter]
  have hwrite : Emits (WriteLog destination fun r => .writeExternal output.path r)
      (flatten (access.logged.write destination (filesystem.logged.writeExternal output.path
        output.bytes output.write absentTargets))) :=
    emits_write (hfs.writeExternal output.path output.bytes output.write absentTargets) _
  intro s
  obtain ⟨es, hes, h⟩ := hwrite s
  rw [Run.bind_ofExcept_apply, Run.mapError_apply]
  refine ⟨es, hes, ?_⟩
  dsimp only
  generalize (flatten (access.logged.write destination (filesystem.logged.writeExternal output.path
    output.bytes output.write absentTargets)) s).1 = r at h ⊢
  cases h with
  | refused e => exact .refused _ _ _ rfl
  | ran es result hsingle =>
    have hran := @Extracted.ran ε completed output.path destination es hsingle result
      (.writeExternal output.path destination)
    cases result with
    | ok other => exact hran
    | error e => exact hran

/-- An output behind its parent directories. -/
theorem Extracted.behind {completed paths : List FragmentPath} {es : List Event}
    {r : Except (PolicyFailure (CommitAccessFailure ε) CommitError) (List FragmentPath)}
    (h : (∃ e, r = .error e ∧ Extraction completed [] es (.error e : Except _ Unit)) ∨
      ∃ (u : Unit) (es₁ es₂ : List Event), es = es₁ ++ es₂ ∧
        Extraction completed [] es₁ (.ok u : Except (PolicyFailure (CommitAccessFailure ε) _) _) ∧
        Extracted completed paths es₂ r) : Extracted completed paths es r := by
  rcases h with ⟨e, rfl, h⟩ | ⟨u, es₁, es₂, rfl, h₁, h₂⟩
  · exact ⟨by simpa using h.error paths, fun _ hr => by cases hr⟩
  · have h₂' : Extraction (completed ++ []) paths es₂ r := by simpa using h₂.toExtraction
    exact ⟨h₁.append h₂', h₂.value⟩

/-- Writing one output is the extraction of this output. -/
theorem commitExternal_extracted (hfs : filesystem.MadeOfSingles)
    (absentTargets completed : List FragmentPath) (output : ExternalOutput) :
    Emits (Extracted completed [output.path])
      (commitExternal access.logged filesystem.logged absentTargets completed output) := by
  have hwrite := fun _ : Unit => @writeExternal_extracted _ _ access _ hfs absentTargets completed
    output (filesystem.externalDestination output.path)
  unfold commitExternal
  split
  · exact (Emits.bind (createParent_extraction hfs completed _ _) hwrite).mono fun es r h => .behind h
  · exact (Emits.bind (Emits.pure () (.of_quiet (.nil _) (by simp) (by simp))) hwrite).mono
      fun es r h => .behind h

/-- The outputs are attempted in their order, and those that return are completed. The induction is
on the outputs, with those that were completed before. -/
theorem commitExternals_extracted (hfs : filesystem.MadeOfSingles)
    (absentTargets completed : List FragmentPath) (outputs : List ExternalOutput) :
    Emits (Extracted completed (outputs.map ExternalOutput.path))
      (commitExternals access.logged filesystem.logged absentTargets completed outputs) := by
  induction outputs generalizing completed with
  | nil =>
    exact Emits.pure _ ⟨.of_quiet (.nil _) (by simp) (by simp), by simp⟩
  | cons output outputs ih =>
    refine (Emits.bind (commitExternal_extracted hfs absentTargets completed output) ih).mono
      fun es r h => ?_
    rcases h with ⟨e, rfl, h⟩ | ⟨completed', es₁, es₂, rfl, h₁, h₂⟩
    · exact ⟨h.error _, fun _ hr => by cases hr⟩
    · obtain rfl := h₁.value completed' rfl
      refine ⟨h₁.append h₂.toExtraction, fun completed' hr => ?_⟩
      rw [h₂.value completed' hr, List.append_assoc]
      rfl

/-- What the writing of the document records behind the `completed` outputs. -/
structure DocumentLog (completed : List FragmentPath) (es : List Event)
    (r : Except (PolicyFailure (CommitAccessFailure ε) CommitError) Unit) : Prop where
  only : Only (fun e => ¬ e.Reads ∧ e.external = none) Event.Failed es r
  last : es.Pairwise fun e _ => ¬ e.WritesDocument
  reported : ∀ failure, r = .error failure → commitCompleted failure = completed

/-- The document is attempted once, when its access is granted. It is the last thing that the
command does. -/
theorem commitDocument_log (hfs : filesystem.MadeOfSingles) (completed : List FragmentPath)
    (document : Option DocumentOutput) :
    Emits (DocumentLog completed)
      (commitDocument access.logged filesystem.logged completed document) := by
  cases document with
  | none => exact Emits.pure _ ⟨.nil _, .nil, by simp⟩
  | some document =>
    have hwrite : Emits
        (WriteLog document.destination fun r => .writeDocument document.destination r.isOk)
        (flatten (access.logged.write document.destination
          (filesystem.logged.writeDocument document.destination document.bytes))) :=
      emits_write (hfs.writeDocument document.destination document.bytes) _
    refine Emits.mapError (hwrite.mono fun es r h => ?_)
    cases h with
    | refused e =>
      exact ⟨.singleton ⟨not_false, rfl⟩ (fun _ hr => by cases hr), List.pairwise_singleton _ _,
        fun _ hr => by cases hr; rfl⟩
    | ran es result hsingle =>
      have hfront : ∀ e ∈ Event.access .write document.destination true :: es,
          ((¬ e.Reads ∧ e.external = none) ∧ ¬ e.Failed) ∧ ¬ e.WritesDocument := by
        rw [List.forall_mem_cons]
        refine ⟨⟨⟨⟨not_false, rfl⟩, not_not_intro rfl⟩, not_false⟩, fun e he => ?_⟩
        have hs := hsingle e he
        cases e with
        | probe | change => exact ⟨⟨⟨not_false, rfl⟩, not_false⟩, not_false⟩
        | _ => cases hs
      refine ⟨.concat (fun e he => (hfront e he).1) ⟨not_false, rfl⟩ ?_, ?_, ?_⟩
      · intro u hu
        cases result with
        | ok u => exact not_not_intro rfl
        | error e => cases hu
      · rw [← List.cons_append, List.pairwise_append]
        exact ⟨List.pairwise_of_forall_mem_list fun e he _ _ => (hfront e he).2,
          List.pairwise_singleton _ _, fun e he _ _ => (hfront e he).2⟩
      · intro failure hr
        cases result with
        | ok u => cases hr
        | error e => cases hr; rfl

/-- What a commit of outputs at `paths` and a document records. Outputs are attempted in the order
of `paths`, and the document only behind all of them. -/
structure CommitLog (paths : List FragmentPath) (es : List Event)
    (r : Except (PolicyFailure (CommitAccessFailure ε) CommitError) Unit) : Prop where
  only : Only (fun e => ¬ e.Reads) Event.Failed es r
  attempted : es.filterMap Event.external <+: paths
  last : es.Pairwise fun e _ => ¬ e.WritesDocument
  document : (∃ e ∈ es, e.WritesDocument) → es.filterMap Event.external = paths
  reported : ∀ failure, r = .error failure →
    commitCompleted failure = es.filterMap Event.completed

/-- No content is read while outputs are written, and the document is not written. -/
theorem Event.Extracts.quiet {e : Event} (h : e.Extracts) : ¬ e.Reads ∧ ¬ e.WritesDocument := by
  cases e with
  | access kind path granted =>
    cases kind with
    | read => cases h
    | write => exact ⟨not_false, not_false⟩
  | read | writeDocument path succeeded => cases h
  | _ => exact ⟨not_false, not_false⟩

/-- A commit that does not get to the document. -/
theorem Extracted.commitLog {paths : List FragmentPath} {es : List Event}
    {failure : PolicyFailure (CommitAccessFailure ε) CommitError}
    (h : Extracted [] paths es (.error failure)) : CommitLog paths es (.error failure) := by
  refine ⟨(h.only.error failure).mono fun e he => he.quiet.1, h.attempted, ?_, ?_, ?_⟩
  · exact List.pairwise_of_forall_mem_list fun e he _ _ => (h.only.all e he).quiet.2
  · intro hdocument
    obtain ⟨e, he, hwrites⟩ := hdocument
    exact absurd hwrites (h.only.all e he).quiet.2
  · intro failure' hr
    exact h.reported failure' (by cases hr; rfl)

/-- A commit that gets to the document. All outputs were completed then. So whoever sees the
document written knows that the outputs are. -/
theorem Extracted.append_document {paths completed : List FragmentPath} {es es' : List Event}
    {r : Except (PolicyFailure (CommitAccessFailure ε) CommitError) Unit}
    (h : Extracted [] paths es
      (.ok completed : Except (PolicyFailure (CommitAccessFailure ε) CommitError) _))
    (h' : DocumentLog completed es' r) : CommitLog paths (es ++ es') r := by
  have hexternal : es'.filterMap Event.external = [] :=
    List.filterMap_eq_nil_iff.2 fun e he => (h'.only.all e he).2
  have hcompleted : es'.filterMap Event.completed = [] := by
    refine List.filterMap_eq_nil_iff.2 fun e he => ?_
    have hnone := (h'.only.all e he).2
    cases e with
    | writeExternal path result => cases hnone
    | _ => rfl
  have hall : (es ++ es').filterMap Event.external = paths := by
    rw [List.filterMap_append, h.finished completed rfl, hexternal, List.append_nil]
  refine ⟨(h.only.mono fun e he => he.quiet.1).append (h'.only.mono fun e he => he.1),
    by rw [hall], ?_, fun _ => hall, fun failure hr => ?_⟩
  · refine List.pairwise_append.2 ⟨?_, h'.last, fun e he _ _ => (h.only.all e he).quiet.2⟩
    exact List.pairwise_of_forall_mem_list fun e he _ _ => (h.only.all e he).quiet.2
  · rw [h'.reported failure hr, h.value completed rfl, List.filterMap_append, hcompleted,
      List.append_nil, h.completed_eq rfl]
    rfl

/-- Outputs in the wrong order are refused before the first write. Nothing is recorded of them, as
the check is a pure one. -/
theorem validateOrder_error {outputs : List ExternalOutput} {e : CommitError}
    (h : validateOrder outputs = .error e) : e.completed = [] := by
  induction outputs with
  | nil => cases h
  | cons previous rest ih =>
    cases rest with
    | nil => cases h
    | cons next rest =>
      rw [validateOrder] at h
      rcases Except.bind_eq_error.1 h with h | ⟨u, -, h⟩
      · unfold require at h
        split at h
        · cases h
        · cases h; rfl
      · exact ih h

/-- The outputs are attempted in increasing order of their paths, and the document behind them.
Outputs in another order are refused before anything is logged. -/
theorem commitUsing_log (hfs : filesystem.MadeOfSingles) (outputs : List ExternalOutput)
    (absentTargets : List FragmentPath) (document : Option DocumentOutput) :
    Emits (fun es r => CommitLog (outputs.map ExternalOutput.path) es r ∧
        (es.filterMap Event.external).Pairwise (· < ·))
      (commitUsing access.logged filesystem.logged outputs absentTargets document) := by
  intro s
  unfold commitUsing
  cases horder : validateOrder outputs with
  | error e =>
    rw [Run.bind_of_error (operation_of_error rfl)]
    refine ⟨[], by simp, ⟨.nil _, List.nil_prefix, .nil, by simp, fun failure hr => ?_⟩, .nil⟩
    cases hr
    exact validateOrder_error horder
  | ok u =>
    rw [Run.bind_of_ok (operation_of_ok rfl)]
    have hsorted := validateOrder_eq_ok.1 horder
    obtain ⟨es, hes, h⟩ := (Emits.bind (commitExternals_extracted hfs absentTargets [] outputs)
      fun completed => @commitDocument_log _ _ access _ hfs completed document) s
    have hincreasing : ∀ {r : Except (PolicyFailure (CommitAccessFailure ε) CommitError) Unit},
        CommitLog (outputs.map ExternalOutput.path) es r →
          CommitLog (outputs.map ExternalOutput.path) es r ∧
            (es.filterMap Event.external).Pairwise (· < ·) :=
      fun hlog => ⟨hlog, hsorted.sublist hlog.attempted.sublist⟩
    refine ⟨es, hes, hincreasing ?_⟩
    rcases h with ⟨e, hr, h⟩ | ⟨completed, es₁, es₂, rfl, h₁, h₂⟩
    · rw [hr]
      exact h.commitLog
    · exact h₁.append_document h₂

end

/-! ## The command -/

section
variable {σ δ φ ε : Type}

/-- The writes that a failed command reports. -/
def failureCompleted : PolicyFailure (EngineAccessFailure ε) Error → List FragmentPath
  | .access failure => failure.completed
  | .operation error => error.committedExternal

/-- A refused access is reported with the same writes. -/
theorem coordinatedError_committedExternal
    (failure : PolicyFailure (EngineAccessFailure CoordinatedAccessFailure) Error) :
    (coordinatedError failure).committedExternal = failureCompleted failure := by
  cases failure <;> rfl

/-- What a command attempts, in order, and how it ends. Most fields speak of failed runs as well. -/
structure ExactLog (request : Request) (prepares : Batch δ → Prop) (log : List Event)
    (r : Except (PolicyFailure (EngineAccessFailure ε) Error) Report) : Prop where
  /-- Contents are read before anything is changed. -/
  reads : log.Pairwise fun e e' => e.Mutates → ¬ e'.Reads
  /-- Nothing is attempted behind a failure. -/
  failed : log.Pairwise fun e _ => ¬ e.Failed
  returned : ∀ report, r = .ok report → ∀ e ∈ log, ¬ e.Failed
  /-- External outputs are attempted in increasing order, hence once each. -/
  increasing : (log.filterMap Event.external).Pairwise (· < ·)
  /-- Only prepared outputs are attempted. -/
  attempted : (∃ e ∈ log, e.Mutates) →
    ∃ b, prepares b ∧ log.filterMap Event.external <+: b.external.map ExternalOutput.path
  /-- The document is written once, behind all prepared outputs. -/
  last : log.Pairwise fun e _ => ¬ e.WritesDocument
  document : (∃ e ∈ log, e.WritesDocument) →
    ∃ b, prepares b ∧ log.filterMap Event.external = b.external.map ExternalOutput.path
  /-- A failure reports the outputs whose write returned, in order. -/
  reported : ∀ failure, r = .error failure → failureCompleted failure = log.filterMap Event.completed
  /-- A failure before the commit changes nothing. -/
  early : ∀ error, r = .error (.operation error) → error.BeforeCommit → ∀ e ∈ log, ¬ e.Mutates
  refused : (∃ path, .access .read path false ∈ log) → ∀ e ∈ log, ¬ e.Mutates
  status : request.mode = .status → ∀ e ∈ log, ¬ e.Mutates

variable {fs : FileSystem σ δ φ} {access : AccessPolicy σ ε} {request : Request}
  {prepares : Batch δ → Prop} {log : List Event}
  {r : Except (PolicyFailure (EngineAccessFailure ε) Error) Report}

/-- An inspection changes nothing, and attempts and completes no output. -/
theorem Event.Inspects.quiet {e : Event} (h : e.Inspects) :
    ¬ e.Mutates ∧ e.external = none ∧ e.completed = none ∧ ¬ e.WritesDocument := by
  cases e with
  | access | probe | read => exact ⟨not_false, rfl, rfl, not_false⟩
  | _ => cases h

/-- So a log of inspections has no attempted and no completed output. -/
theorem filterMap_inspects {log : List Event} (h : ∀ e ∈ log, e.Inspects) :
    log.filterMap Event.external = [] ∧ log.filterMap Event.completed = [] :=
  ⟨List.filterMap_eq_nil_iff.2 fun e he => (h e he).quiet.2.1,
    List.filterMap_eq_nil_iff.2 fun e he => (h e he).quiet.2.2.1⟩

/-- A command that only discovers. Most of what is to be shown is about changes, and there are
none. -/
theorem ExactLog.of_inspects (hinspects : ∀ e ∈ log, e.Inspects)
    (hfailed : log.Pairwise fun e _ => ¬ e.Failed)
    (hreturned : ∀ report, r = .ok report → ∀ e ∈ log, ¬ e.Failed)
    (hearly : ∀ failure, r = .error failure → failureCompleted failure = []) :
    ExactLog request prepares log r where
  reads := List.pairwise_of_forall_mem_list fun e he _ _ hm => absurd hm (hinspects e he).quiet.1
  failed := hfailed
  returned := hreturned
  increasing := by rw [(filterMap_inspects hinspects).1]; exact .nil
  attempted := by
    intro hmutates
    obtain ⟨e, he, hm⟩ := hmutates
    exact absurd hm (hinspects e he).quiet.1
  last := List.pairwise_of_forall_mem_list fun e he _ _ => (hinspects e he).quiet.2.2.2
  document := by
    intro hdocument
    obtain ⟨e, he, hwrites⟩ := hdocument
    exact absurd hwrites (hinspects e he).quiet.2.2.2
  reported := fun failure hr => by rw [(filterMap_inspects hinspects).2, hearly failure hr]
  early := fun _ _ _ e he => (hinspects e he).quiet.1
  refused := fun _ e he => (hinspects e he).quiet.1
  status := fun _ e he => (hinspects e he).quiet.1

/-- A failure of a commit as a failure of the command. -/
def commitFailed (failure : PolicyFailure (CommitAccessFailure ε) CommitError) :
    PolicyFailure (EngineAccessFailure ε) Error :=
  (failure.mapAccess .commit).mapOperation .commit

/-- A command that commits behind its discovery. Each part is that of the commit, since the
discovery has no changes, no outputs and no failures. -/
theorem ExactLog.of_commit {b : Batch δ} {es es' : List Event}
    {r' : Except (PolicyFailure (CommitAccessFailure ε) CommitError) Unit} (hb : prepares b)
    (hmode : request.mode = .mutate b.op) (hinspects : ∀ e ∈ es, e.Inspects)
    (hnone : ∀ e ∈ es, ¬ e.Failed) (h : CommitLog (b.external.map ExternalOutput.path) es' r')
    (hincreasing : (es'.filterMap Event.external).Pairwise (· < ·))
    (hr : r = (mapError commitFailed r').bind fun _ => .ok b.report) :
    ExactLog request prepares (es ++ es') r := by
  have hexternal : (es ++ es').filterMap Event.external = es'.filterMap Event.external := by
    rw [List.filterMap_append, (filterMap_inspects hinspects).1, List.nil_append]
  have hcompleted : (es ++ es').filterMap Event.completed = es'.filterMap Event.completed := by
    rw [List.filterMap_append, (filterMap_inspects hinspects).2, List.nil_append]
  have hquiet : ∀ error : Error, r = .error (.operation error) → ¬ error.BeforeCommit := by
    intro error hr' hbefore
    rw [hr'] at hr
    cases r' with
    | ok u => cases hr
    | error failure =>
      cases failure with
      | access failure => cases hr
      | operation failure => cases hr; exact hbefore
  constructor
  case reads =>
    refine List.pairwise_append.2 ⟨?_, ?_, fun e he _ _ hm => absurd hm (hinspects e he).quiet.1⟩
    · exact List.pairwise_of_forall_mem_list fun e he _ _ hm => absurd hm (hinspects e he).quiet.1
    · exact List.pairwise_of_forall_mem_list fun _ _ e he _ => h.only.all e he
  case failed =>
    exact List.pairwise_append.2 ⟨List.pairwise_of_forall_mem_list fun e he _ _ => hnone e he,
      h.only.last, fun e he _ _ => hnone e he⟩
  case returned =>
    intro report hr' e he
    rw [hr'] at hr
    cases r' with
    | error failure => cases hr
    | ok u =>
      rcases List.mem_append.1 he with he | he
      · exact hnone e he
      · exact h.only.returned u rfl e he
  case increasing => rwa [hexternal]
  case attempted => exact fun _ => ⟨b, hb, by rw [hexternal]; exact h.attempted⟩
  case last =>
    exact List.pairwise_append.2
      ⟨List.pairwise_of_forall_mem_list fun e he _ _ => (hinspects e he).quiet.2.2.2, h.last,
        fun e he _ _ => (hinspects e he).quiet.2.2.2⟩
  case document =>
    intro hdocument
    obtain ⟨e, he, hwrites⟩ := hdocument
    rcases List.mem_append.1 he with he | he
    · exact absurd hwrites (hinspects e he).quiet.2.2.2
    · exact ⟨b, hb, by rw [hexternal, h.document ⟨e, he, hwrites⟩]⟩
  case reported =>
    intro failure hr'
    rw [hcompleted]
    rw [hr'] at hr
    cases r' with
    | ok u => cases hr
    | error failure' =>
      cases hr
      rw [← h.reported failure' rfl]
      cases failure' <;> rfl
  case early => exact fun error hr' hbefore => absurd hbefore (hquiet error hr')
  case refused =>
    intro hrefused
    obtain ⟨path, hmem⟩ := hrefused
    rcases List.mem_append.1 hmem with he | he
    · exact absurd (show ¬ (false = true) by decide) (hnone _ he)
    · exact absurd trivial (h.only.all _ he)
  case status =>
    intro hstatus
    rw [hmode] at hstatus
    cases hstatus

variable [Sha256]

/-- The command with everything it attempts recorded. -/
def executeLogged (fs : FileSystem σ δ φ) (access : AccessPolicy σ ε) (request : Request) :
    Run (σ × List Event) (PolicyFailure (EngineAccessFailure ε) Error) Report :=
  executeUsing fs.logged (fun root => (realFilesystem fs.logged root).logged) access.logged request

/-- Without its log the recorded command is the command: recording changes neither how it ends nor
the state that it leaves. -/
theorem executeLogged_along (fs : FileSystem σ δ φ) (access : AccessPolicy σ ε) (request : Request) :
    Run.Along Prod.fst (executeLogged fs access request) (executeWithAccess fs access request) :=
  executeUsing_along fs.logged_along
    (fun root => CommitFilesystem.logged_along (fs.logged_along.realFilesystem root))
    access.logged_along request

/-- Whatever fails, reads come before writes, writes come in path order with the document last,
nothing follows a failure, and a failure reports the completed writes. The filesystem and the access
policy may do whatever they like, so this holds of every cut of a run by a failure. -/
theorem executeLogged_exact (fs : FileSystem σ δ φ) (access : AccessPolicy σ ε) (request : Request)
    (s : σ) : ExactLog request
      (fun b => ∃ t, Prepares fs.logged access.logged request (s, []) b t)
      (executeLogged fs access request (s, [])).2.2 (executeLogged fs access request (s, [])).1 := by
  obtain ⟨es, hes, hinspects⟩ := @discoverRequest_inspects _ _ _ _ fs access request (s, [])
  rw [List.nil_append] at hes
  by_cases hprepares : ∃ b t, Prepares fs.logged access.logged request (s, []) b t
  · obtain ⟨b, t, hb⟩ := hprepares
    rw [hb.discoverRequest_eq] at hes hinspects
    obtain rfl : t.2 = es := hes
    have hnone := hinspects.returned _ rfl
    rw [executeLogged, hb.executeUsing_eq]
    split
    · exact .of_inspects hinspects.all hinspects.last (fun _ _ => hnone) (fun _ hr => by cases hr)
    · obtain ⟨es', hes', hlog, hincreasing⟩ := @commitUsing_log _ _ access _
        (@realFilesystem_singles _ _ _ fs b.inventory.sourceRoot) b.external
        (absentTargets b.inventory.entries) b.document t
      have hrun := Run.bind_ofExcept_apply (b.commit (fun root =>
        (realFilesystem fs.logged root).logged) access.logged) (fun _ => .ok b.report) t
      rw [show ((b.commit _ _ >>= fun _ => pure b.report) t) = _ from hrun]
      have hlog' : (b.commit (fun root => (realFilesystem fs.logged root).logged) access.logged
          t).2.2 = t.2 ++ es' := hes'
      rw [hlog']
      exact .of_commit ⟨t, hb⟩ hb.mode hinspects.all hnone hlog hincreasing rfl
  · obtain ⟨hstate, hreturned, hfailure⟩ :=
      executeUsing_discovers (fun root => (realFilesystem fs.logged root).logged) hprepares
    rw [executeLogged, hstate, hes]
    refine .of_inspects hinspects.all hinspects.last ?_ ?_
    · intro report hr
      obtain ⟨found, hfound⟩ := hreturned report hr
      exact hinspects.returned found hfound
    · intro failure hr
      have := hfailure failure hr
      cases failure with
      | access failure => exact this
      | operation error =>
        cases error with
        | commit _ | coordination _ => cases this
        | _ => rfl

end

end Zwirn.Sync
