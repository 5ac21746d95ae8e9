import Zwirn.Live.Watch
import Zwirn.Sync.Confined

/-!
# The life of a session

`runWithWriter` registers the signals, starts the signal thread and the monitor, runs the driver and
gives everything back. However the system answers and however the driver ends, no object is misused
and all of them are given back: callbacks stop before the signal thread is joined, and the driver
runs only while the monitor and the signal thread are live (`runWithWriter_yields`). The monitor
watches what the engine resolves its request to, and so all that a reconciliation can reach
(`reconciliation_watched`). The code is in `src/live.rs`.
-/

namespace Zwirn.Live

open Lib Fragment Sync

/-! ## Shutdown signals -/

/-- Whether the handle and the thread are still there. -/
structure ShutdownSignals where
  handle : Bool
  thread : Bool

namespace ShutdownSignals

/-- `error` is the failure of the system. If the thread does not start, the signals are unregistered
again. -/
def start (answer : Nat → Bool) (error : IoError) : Native (Except Error ShutdownSignals) := do
  let registered ← attempt answer .registerSignals
  if !registered then pure (.error (.signalRegistration error))
  else do
    let started ← attempt answer .startSignalThread
    if !started then
      perform .unregisterSignals
      pure (.error (.signalThreadStart error))
    else pure (.ok ⟨true, true⟩)

/-- The thread is joined behind the closing of its iterator, and may have panicked. -/
def closeAndJoin (answer : Nat → Bool) (signals : ShutdownSignals) :
    Native (Except Error Unit × ShutdownSignals) := do
  if signals.handle then
    perform .closeSignals
  let joined ←
    if signals.thread then do
      perform .joinSignalThread
      let returned ← Custody.ask answer
      Custody.note .joinSignalThread returned
      pure returned
    else pure true
  if signals.handle then
    perform .unregisterSignals
  pure (if joined then .ok () else .error .signalThreadStopped, ⟨false, false⟩)

/-- Dropping closes and joins. Where that was done before it does nothing, since the handle and the
thread are gone. -/
def drop (answer : Nat → Bool) (signals : ShutdownSignals) : Native Unit := do
  let _ ← signals.closeAndJoin answer
  pure ()

end ShutdownSignals

/-! ## The session -/

/-- A session is about a document, which is known by its extension. It is checked before anything is
created. -/
def validateDocumentPath (document : Path) : Except Error Unit :=
  require (document.extension = some ['a', 'u', 'd', 'u', 'l', 'u', 's', '4'])
    (.invalidDocumentExtension document)

/-- A relative path is taken from the working directory. -/
def fixedPath (cwd path : Path) : Path := if path.absolute then path else cwd.join path

/-- The paths the monitor is started with. -/
def monitoredDocument (cwd document : Path) : Path := fixedPath cwd document

/-- Without a source root the directory of the document is watched. -/
def monitoredSourceRoot (cwd document : Path) (sourceRoot : Option Path) : Path :=
  match sourceRoot with
  | some path => fixedPath cwd path
  | none => (monitoredDocument cwd document).parent.getD cwd

/-- `error` is the failure of the system, and `session` is how the reporter and the driver end for a
request. In the source it is `run_with_writer`. -/
def runWithWriter (os : Os) (error : IoError) (session : Request → Except Error Unit)
    (cwd document : Path) (sourceRoot : Option Path) : Native (Except Error Unit) :=
  match validateDocumentPath document with
  | .error error => pure (.error error)
  | .ok () => do
    perform .createChannel
    match ← ShutdownSignals.start os.answer error with
    | .error error =>
      perform .dropSender
      pure (.error error)
    | .ok signals =>
      match ← SessionMonitor.start os (monitoredSourceRoot cwd document sourceRoot)
          (monitoredDocument cwd document) with
      | .error error =>
        let (_, signals) ← signals.closeAndJoin os.answer
        signals.drop os.answer
        perform .dropSender
        pure (.error (.monitor error))
      | .ok monitor =>
        perform .dropSender
        perform .runSession
        monitor.drop
        let (signalResult, signals) ← signals.closeAndJoin os.answer
        signals.drop os.answer
        match session (liveRequest cwd document sourceRoot) with
        | .error error => pure (.error error)
        | .ok () => pure signalResult

/-! ## What a session holds -/

/-- The objects of a session with its signal thread, and with the sender that it was made with. -/
def withSignals (sender : Bool) : Objects := { sender, signals := true, signalThread := true }

/-- The calls that can have failed once the session ends: none, or the join of a signal thread that
has panicked. -/
def JoinFails (failed : List Call) : Prop := failed = [] ∨ failed = [.joinSignalThread]

/-- How a session ends in which these calls have failed, the first of them in front. A session that
fails returns the error of the first step that has failed, and each constructor says which one that
is: the steps before it have not failed, as the list of calls shows and as the equations say of the
steps that are no calls. -/
inductive Ends (os : Os) (error : IoError) (session : Request → Except Error Unit)
    (cwd document : Path) (sourceRoot : Option Path) : List Call → Except Error Unit → Prop
  | invalid {e : Error} : validateDocumentPath document = .error e →
      Ends os error session cwd document sourceRoot [] (.error e)
  | signalRegistration : validateDocumentPath document = .ok () →
      Ends os error session cwd document sourceRoot [.registerSignals]
        (.error (.signalRegistration error))
  | signalThreadStart : validateDocumentPath document = .ok () →
      Ends os error session cwd document sourceRoot [.startSignalThread]
        (.error (.signalThreadStart error))
  | scopes {joined : List Call} {e : StartError} : validateDocumentPath document = .ok () →
      fixedScopes os (monitoredSourceRoot cwd document sourceRoot) (monitoredDocument cwd document) =
        .error e → JoinFails joined →
      Ends os error session cwd document sourceRoot joined (.error (.monitor e))
  /-- The native start refuses its arguments or fails in a call. -/
  | monitor {new joined : List Call} {scopes : Path × Path} {failure : NativeFailure} :
      validateDocumentPath document = .ok () →
      fixedScopes os (monitoredSourceRoot cwd document sourceRoot) (monitoredDocument cwd document) =
        .ok scopes → StartFails (nativePaths os scopes) failure new → JoinFails joined →
      Ends os error session cwd document sourceRoot (new ++ joined)
        (.error (.monitor (.native failure)))
  /-- The failure of the driver comes before that of the signal thread. -/
  | session {joined : List Call} {e : Error} : validateDocumentPath document = .ok () →
      (fixedScopes os (monitoredSourceRoot cwd document sourceRoot)
        (monitoredDocument cwd document)).isOk → JoinFails joined →
      session (liveRequest cwd document sourceRoot) = .error e →
      Ends os error session cwd document sourceRoot joined (.error e)
  | signalThreadStopped : validateDocumentPath document = .ok () →
      (fixedScopes os (monitoredSourceRoot cwd document sourceRoot)
        (monitoredDocument cwd document)).isOk →
      session (liveRequest cwd document sourceRoot) = .ok () →
      Ends os error session cwd document sourceRoot [.joinSignalThread] (.error .signalThreadStopped)
  | stopped : validateDocumentPath document = .ok () →
      (fixedScopes os (monitoredSourceRoot cwd document sourceRoot)
        (monitoredDocument cwd document)).isOk →
      session (liveRequest cwd document sourceRoot) = .ok () →
      Ends os error session cwd document sourceRoot [] (.ok ())

section
variable {answer : Nat → Bool} {sender : Bool} {failed : List Call}

/-- The signals are registered and their thread started, or the first of these calls that fails is
reported and nothing of them is left. -/
theorem ShutdownSignals.start_yields (error : IoError) :
    Run.Yields (Custody.Holds { sender := true } []) (ShutdownSignals.start answer error) fun r s =>
      match r with
      | .ok signals => signals = ⟨true, true⟩ ∧ Custody.Holds (withSignals true) [] s
      | .error e => ∃ call, Custody.Holds { sender := true } [call] s ∧
          (call = .registerSignals ∧ e = .signalRegistration error ∨
            call = .startSignalThread ∧ e = .signalThreadStart error) := by
  refine (attempt_yields rfl).bind fun registered => ?_
  cases registered with
  | false => exact .pure fun _ hs => ⟨_, hs, .inl ⟨rfl, rfl⟩⟩
  | true =>
    refine (attempt_yields rfl).bind fun started => ?_
    cases started with
    | false =>
      exact (perform_yields rfl).bind fun _ => .pure fun _ hs => ⟨_, hs, .inr ⟨rfl, rfl⟩⟩
    | true => exact .pure fun _ hs => ⟨rfl, hs⟩

/-- Closing and joining gives back what the signals have. It fails where the signal thread has
panicked. -/
theorem ShutdownSignals.closeAndJoin_yields :
    Run.Yields (Custody.Holds (withSignals sender) failed) (closeAndJoin answer ⟨true, true⟩)
      fun r s => r.2 = ⟨false, false⟩ ∧ ∃ joined, Custody.Holds { sender } (failed ++ joined) s ∧
        (r.1 = .ok () ∧ joined = [] ∨
          r.1 = .error .signalThreadStopped ∧ joined = [.joinSignalThread]) := by
  rintro ⟨_, answers, _⟩ ⟨rfl, rfl⟩
  refine ⟨_, ⟨_, answers + 1, _⟩, rfl, rfl, _, ⟨rfl, rfl⟩, ?_⟩
  dsimp only
  cases answer answers with
  | false => exact .inr ⟨rfl, rfl⟩
  | true => exact .inl ⟨rfl, rfl⟩

/-- The drop of signals that were closed does nothing. -/
theorem ShutdownSignals.drop_yields {o : Objects} :
    Run.Yields (Custody.Holds o failed) (drop answer ⟨false, false⟩) fun _ =>
      Custody.Holds o failed :=
  fun s hs => ⟨(), s, rfl, hs⟩

end

/-- However the system answers and the driver ends, a session misuses no object, gives all of them
back, and returns the error of the first step that has failed. The calls that fail are told in their
order, so it is said which step that is, and that none before it has failed. -/
theorem runWithWriter_yields (os : Os) (error : IoError) (session : Request → Except Error Unit)
    (cwd document : Path) (sourceRoot : Option Path) :
    Run.Yields (Custody.Holds {} []) (runWithWriter os error session cwd document sourceRoot)
      fun r s => s.objects = {} ∧ Ends os error session cwd document sourceRoot s.failed r := by
  unfold runWithWriter
  cases hvalid : validateDocumentPath document with
  | error e => exact .pure fun s hs => ⟨hs.1, hs.2.symm ▸ .invalid hvalid⟩
  | ok =>
    refine (perform_yields rfl).bind fun _ => (ShutdownSignals.start_yields error).bind fun r => ?_
    cases r with
    | error e =>
      rintro s ⟨call, hs, he⟩
      refine (perform_yields rfl).bind (fun _ => .pure fun t ht => ⟨ht.1, ?_⟩) s hs
      rw [ht.2]
      rcases he with ⟨rfl, rfl⟩ | ⟨rfl, rfl⟩
      · exact .signalRegistration hvalid
      · exact .signalThreadStart hvalid
    | ok signals =>
      rintro s ⟨rfl, hs⟩
      refine Run.Yields.bind (SessionMonitor.start_yields (o := withSignals true) rfl os _ _)
        (fun r => ?_) s hs
      cases r with
      | error e =>
        rintro s ⟨new, hs, he⟩
        refine (ShutdownSignals.closeAndJoin_yields.bind fun r => ?_) s hs
        obtain ⟨result, signals⟩ := r
        rintro s ⟨rfl, joined, hs, hjoined⟩
        have hjoins : JoinFails joined := hjoined.imp And.right And.right
        refine (ShutdownSignals.drop_yields.bind fun _ => (perform_yields rfl).bind fun _ =>
          .pure fun t ht => ⟨ht.1, ?_⟩) s hs
        rw [ht.2]
        rcases he with ⟨hscopes, rfl⟩ | ⟨scopes, failure, hscopes, rfl, hfails⟩
        · exact .scopes hvalid hscopes hjoins
        · exact .monitor hvalid hscopes hfails hjoins
      | ok monitor =>
        rintro s ⟨rfl, hscopes, hs⟩
        refine ((perform_yields rfl).bind fun _ => (perform_yields rfl).bind fun _ =>
          (SessionMonitor.drop_yields (o := withSignals false)).bind fun _ =>
          ShutdownSignals.closeAndJoin_yields.bind fun r => ?_) s hs
        obtain ⟨result, signals⟩ := r
        rintro s ⟨rfl, joined, hs, hjoined⟩
        refine (ShutdownSignals.drop_yields.bind fun _ => ?_) s hs
        cases hsession : session (liveRequest cwd document sourceRoot) with
        | error e =>
          refine .pure fun t ht => ⟨ht.1, ht.2.symm ▸ ?_⟩
          exact .session hvalid hscopes (hjoined.imp And.right And.right) hsession
        | ok =>
          refine .pure fun t ht => ⟨ht.1, ht.2.symm ▸ ?_⟩
          rcases hjoined with ⟨rfl, rfl⟩ | ⟨rfl, rfl⟩
          · exact .stopped hvalid hscopes hsession
          · exact .signalThreadStopped hvalid hscopes hsession

/-! ## What the monitor watches -/

section
variable {cwd document : Path}

/-- The session fixes a path as the engine resolves it. -/
theorem fixedPath_eq (cwd path : Path) : fixedPath cwd path = resolveFrom cwd path := rfl

/-- In an absolute working directory a fixed path is absolute. A relative path is joined to it. -/
theorem fixedPath_absolute (hcwd : cwd.absolute) (path : Path) : (fixedPath cwd path).absolute := by
  unfold fixedPath
  split
  · next h => exact h
  · next h =>
    rw [Path.join]
    split
    · next hor =>
      rcases hor with hor | hor
      · exact hor
      · rw [hor] at hcwd
        cases hcwd
    · exact hcwd

/-- The directory of a path is absolute exactly if the path is. -/
theorem parent_absolute {path parent : Path} (h : path.parent = some parent) :
    parent.absolute = path.absolute := by
  rw [Path.parent] at h
  split at h
  · cases h
  · cases h
    rfl

/-- The scopes of absolute paths are these paths. -/
theorem fixedScopes_of_absolute {os : Os} {root document parent : Path} (hroot : root.absolute)
    (hdocument : document.absolute) (hparent : document.parent = some parent) :
    fixedScopes os root document = .ok (root, parent) := by
  rw [fixedScopes, if_pos ⟨hroot, hdocument⟩]
  simp [fixedAbsolute, hroot, hdocument, hparent, okOr]

/-- A valid document has a parent wherever it is resolved. It ends with a name, so there is
something to drop. -/
theorem exists_parent (hvalid : validateDocumentPath document = .ok ()) (cwd : Path) :
    ∃ parent, (resolveFrom cwd document).parent = some parent := by
  obtain ⟨name, hname, -⟩ := Option.bind_eq_some_iff.1 (require_eq_ok.1 hvalid)
  obtain ⟨hlast, hplain⟩ := Option.filter_eq_some_iff.1 hname
  have hmem : name ∈ (resolveFrom cwd document).components := by
    have hdocument : name ∈ document.components := List.mem_of_getLast? hlast
    unfold resolveFrom Path.join
    split
    · exact hdocument
    · split
      · exact hdocument
      · refine List.mem_append_right _ (List.mem_filter.2 ⟨hdocument, ?_⟩)
        simp only [decide_eq_true_eq] at hplain ⊢
        exact hplain.1
  exact ⟨_, if_neg (List.ne_nil_of_mem hmem)⟩

/-- The monitor is started on the scopes that the engine resolves the request to. In an absolute
working directory both take a relative path from there, and both take the directory of the document
where there is no source root. -/
theorem fixedScopes_of_resolvePaths (hcwd : cwd.absolute)
    (hvalid : validateDocumentPath document = .ok ()) (os : Os) (sourceRoot : Option Path) :
    ∃ paths parent, resolvePaths cwd document sourceRoot = .ok paths ∧
      paths.document.parent = some parent ∧
      fixedScopes os (monitoredSourceRoot cwd document sourceRoot) (monitoredDocument cwd document) =
        .ok (paths.sourceRoot, parent) := by
  obtain ⟨parent, hparent⟩ := exists_parent hvalid cwd
  have hdocument := fixedPath_absolute hcwd document
  have hextension := require_eq_ok.1 hvalid
  cases sourceRoot with
  | some root =>
    refine ⟨⟨resolveFrom cwd document, resolveFrom cwd root⟩, parent, ?_, hparent,
      fixedScopes_of_absolute (fixedPath_absolute hcwd root) hdocument hparent⟩
    simp [resolvePaths, hextension, require]
  | none =>
    have hroot : monitoredSourceRoot cwd document none = parent := by
      rw [monitoredSourceRoot, monitoredDocument, fixedPath_eq, hparent]
      rfl
    refine ⟨⟨resolveFrom cwd document, parent⟩, parent, ?_, hparent, ?_⟩
    · simp [resolvePaths, hextension, require, hparent, okOr]
    · rw [hroot]
      refine fixedScopes_of_absolute ?_ hdocument hparent
      rw [parent_absolute hparent]
      exact hdocument

/-- The monitor starts watching whatever the reconciliations of its session can reach: what lies
beneath the source root, and the document in its parent. The scopes are those of the paths that the
engine resolves the request to, and a confined filesystem makes no difference to it. -/
theorem reconciliation_watched [Sha256] {σ δ φ : Type} (hcwd : cwd.absolute)
    (hvalid : validateDocumentPath document = .ok ()) (os : Os) (sourceRoot : Option Path)
    (fs : FileSystem σ δ φ) (coordinated : AccessPolicy σ CoordinatedAccessFailure) :
    ∃ (root parent : Path) (paths : ResolvedPaths),
      fixedScopes os (monitoredSourceRoot cwd document sourceRoot) (monitoredDocument cwd document) =
        .ok (root, parent) ∧
      resolvePaths cwd document sourceRoot = .ok paths ∧
      paths.sourceRoot = root ∧ paths.document.parent = some parent ∧
      ∀ denied refusal, execute (fs.confined paths denied) (coordinated.confined paths refusal)
          (liveRequest cwd document sourceRoot) =
        execute fs coordinated (liveRequest cwd document sourceRoot) := by
  obtain ⟨paths, parent, hpaths, hparent, hscopes⟩ :=
    fixedScopes_of_resolvePaths hcwd hvalid os sourceRoot
  refine ⟨paths.sourceRoot, parent, paths, hscopes, hpaths, rfl, hparent, fun denied refusal => ?_⟩
  exact congrArg (Run.mapError coordinatedError) (executeWithAccess_confined hpaths denied refusal)

end

/-- A system on which every call succeeds, with the root as its current directory. -/
def sampleOs : Os := ⟨fun _ => true, .ok ⟨true, []⟩, fun _ => []⟩

/-- A document in the root: the scopes are the root twice. -/
theorem reconciliation_watched_sample : ∃ root parent paths,
    fixedScopes sampleOs (monitoredSourceRoot ⟨true, []⟩ ⟨false, [sampleDocumentName]⟩ none)
        (monitoredDocument ⟨true, []⟩ ⟨false, [sampleDocumentName]⟩) = .ok (root, parent) ∧
      resolvePaths ⟨true, []⟩ ⟨false, [sampleDocumentName]⟩ none = .ok paths ∧
      paths.sourceRoot = root ∧ paths.document.parent = some parent ∧
      ∀ denied refusal, @execute lfDigest _ _ _ ((treeFilesystem []).confined paths denied)
          (sampleAccess.confined paths refusal) sampleLiveRequest =
        @execute lfDigest _ _ _ (treeFilesystem []) sampleAccess sampleLiveRequest :=
  @reconciliation_watched _ _ lfDigest _ _ _ rfl rfl sampleOs none _ _

end Zwirn.Live
