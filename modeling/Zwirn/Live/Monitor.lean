import Zwirn.Lib.Custody
import Zwirn.Sync.Coordinated
import Zwirn.Sync.Engine

/-!
# The monitor of the session

The monitor watches the hierarchy of the source root and the parent of the document with one event
stream, which delivers on a queue and borrows the callback state. `Call.use` is the protocol of
these objects and of those that the foreground session holds beside them. However the system
answers, starting the monitor does not misuse an object, and a start that fails gives all of them
back (`SessionMonitor.start_yields`), as the drop of a started monitor does
(`SessionMonitor.drop_yields`). The code is in `src/live/macos.rs` and
`native/macos/session_monitor.c`.
-/

namespace Zwirn.Live

open Lib Sync

/-! ## Failures -/

/-- Why the native monitor did not start, as the status says. A status that is not among the known
ones is a failure of the protocol. -/
inductive NativeFailureKind
  | invalidArgument
  | allocation
  | pathRepresentation
  | streamCreation
  | queueCreation
  | streamStart
  | protocol (status : Int)
deriving DecidableEq, Repr

/-- A failure of the native monitor, with its message. -/
structure NativeFailure where
  kind : NativeFailureKind
  message : Str
deriving DecidableEq, Repr

/-- Why the monitor did not start. The paths are fixed before anything native is done. -/
inductive StartError
  | currentDirectory (message : Str)
  | documentWithoutParent (document : Path)
  | native (failure : NativeFailure)
  /-- The thread panics. -/
  | panic (message : String)
deriving DecidableEq, Repr

/-- The statuses are those of `session_monitor.h`. -/
def monitorOk : Int := 0
/-- The paths are not those of a session. -/
def monitorInvalidArgument : Int := 1
/-- Something could not be allocated. -/
def monitorAllocationFailed : Int := 2
/-- A path is no file system representation. -/
def monitorPathNotRepresentable : Int := 3
/-- The stream could not be created. -/
def monitorStreamCreateFailed : Int := 4
/-- The delivery queue could not be created. -/
def monitorQueueCreateFailed : Int := 5
/-- The stream could not be started. -/
def monitorStreamStartFailed : Int := 6

/-- What the native start leaves behind: a status, and the buffer of its message. -/
structure MonitorOutcome where
  status : Int
  message : Bytes

/-- `zwirn_set_outcome`. -/
def setOutcome (status : Int) (message : String) : MonitorOutcome :=
  ⟨status, copyBytes 1024 (encode message.toList)⟩

/-- The kind of failure of a status. A status that is none of these is a failure of the protocol. -/
def failureKind (status : Int) : NativeFailureKind :=
  if status = monitorInvalidArgument then .invalidArgument
  else if status = monitorAllocationFailed then .allocation
  else if status = monitorPathNotRepresentable then .pathRepresentation
  else if status = monitorStreamCreateFailed then .streamCreation
  else if status = monitorQueueCreateFailed then .queueCreation
  else if status = monitorStreamStartFailed then .streamStart
  else .protocol status

/-- The failure of an outcome, with the text of its message. -/
def MonitorOutcome.failure (outcome : MonitorOutcome) : NativeFailure :=
  ⟨failureKind outcome.status, boundedString outcome.message⟩

/-! ## The protocol of the objects -/

/-- How far a stream is. It is used in this order, and a stream that was not scheduled is released
at once. -/
inductive StreamState
  | created
  | scheduled
  | started
  | stopped
  | invalidated
deriving DecidableEq, Repr

/-- The objects that a foreground session holds. A call is possible only with the objects that it
uses, and a release takes its object away. -/
structure Objects where
  /-- The callback state, which the monitor borrows. -/
  context : Bool := false
  monitor : Bool := false
  representation : Bool := false
  watchedPath : Bool := false
  watchedPaths : Bool := false
  stream : Option StreamState := none
  queue : Bool := false
  /-- The callback may be running or be about to run. -/
  delivering : Bool := false
  /-- The sender that is cloned for the signal thread and for the callback state. -/
  sender : Bool := false
  signals : Bool := false
  signalsClosed : Bool := false
  signalThread : Bool := false
deriving DecidableEq, Repr

/-- The calls that create, use and release the objects of a session. -/
inductive Call
  | createContext | dropContext
  | allocateMonitor | freeMonitor
  | allocateRepresentation | freeRepresentation
  | createWatchedPath | releaseWatchedPath
  | createWatchedPaths | appendWatchedPath | releaseWatchedPaths
  | createStream | scheduleStream | startStream | stopStream | invalidateStream | releaseStream
  | createQueue | drainQueue | releaseQueue
  | createChannel | dropSender
  | registerSignals | closeSignals | unregisterSignals
  | startSignalThread | joinSignalThread
  | runSession
deriving DecidableEq, Repr

/-- What a call needs, and what is held behind it. Where it gives nothing, the call would be a
misuse. -/
def Call.use (call : Call) (o : Objects) : Option Objects :=
  match call with
  | .createContext => bif o.sender && !o.context then some { o with context := true } else none
  -- The native monitor, its stream and the callback borrow the callback state.
  | .dropContext =>
    bif o.context && !o.monitor && !o.delivering then some { o with context := false } else none
  | .allocateMonitor =>
    bif o.context && !o.monitor then some { o with monitor := true } else none
  -- The stream and the callback borrow the monitor.
  | .freeMonitor =>
    bif o.monitor && o.stream.isNone && !o.queue && !o.delivering then
      some { o with monitor := false } else none
  | .allocateRepresentation =>
    bif !o.representation then some { o with representation := true } else none
  | .freeRepresentation =>
    bif o.representation then some { o with representation := false } else none
  | .createWatchedPath =>
    bif o.representation && !o.watchedPath then some { o with watchedPath := true } else none
  | .releaseWatchedPath =>
    bif o.watchedPath then some { o with watchedPath := false } else none
  | .createWatchedPaths =>
    bif !o.watchedPaths then some { o with watchedPaths := true } else none
  | .appendWatchedPath => bif o.watchedPath && o.watchedPaths then some o else none
  | .releaseWatchedPaths =>
    bif o.watchedPaths then some { o with watchedPaths := false } else none
  | .createStream =>
    bif o.monitor && o.watchedPaths && o.stream.isNone then some { o with stream := some .created }
    else none
  | .scheduleStream =>
    match o.stream with
    | some .created => bif o.queue then some { o with stream := some .scheduled } else none
    | _ => none
  | .startStream =>
    match o.stream with
    | some .scheduled => some { o with stream := some .started, delivering := true }
    | _ => none
  | .stopStream =>
    match o.stream with
    | some .started => some { o with stream := some .stopped }
    | _ => none
  | .invalidateStream =>
    match o.stream with
    | some .scheduled | some .stopped => some { o with stream := some .invalidated }
    | _ => none
  -- What was delivered to the queue before has run when it is drained.
  | .drainQueue =>
    bif o.queue then
      some { o with delivering := o.delivering && o.stream != some .invalidated }
    else none
  | .releaseStream =>
    match o.stream with
    | some .created | some .invalidated => some { o with stream := none }
    | _ => none
  | .createQueue => bif !o.queue then some { o with queue := true } else none
  | .releaseQueue => bif o.queue && !o.delivering then some { o with queue := false } else none
  | .createChannel => bif !o.sender then some { o with sender := true } else none
  | .dropSender => bif o.sender then some { o with sender := false } else none
  | .registerSignals => bif !o.signals then some { o with signals := true } else none
  | .startSignalThread =>
    bif o.sender && o.signals && !o.signalThread then some { o with signalThread := true } else none
  -- Native callbacks stop before the signal iterator is closed and joined.
  | .closeSignals =>
    bif o.signals && !o.delivering then some { o with signalsClosed := true } else none
  | .joinSignalThread =>
    bif o.signalThread && o.signalsClosed then some { o with signalThread := false } else none
  | .unregisterSignals =>
    bif o.signals && !o.signalThread then some { o with signals := false, signalsClosed := false }
    else none
  -- Signal handling and monitoring are both live, and their senders are the only ones.
  | .runSession =>
    bif o.delivering && o.signalThread && !o.signalsClosed && !o.sender then some o else none

/-- A run over the objects of a foreground session. A call that the protocol does not allow fails
it. -/
abbrev Native := Run (Custody Objects Call) Call

/-- A call that does not fail. The protocol has to allow it. -/
def perform (call : Call) : Native Unit := Custody.perform Call.use call

/-- A call that may fail, and creates nothing then. -/
def attempt (answer : Nat → Bool) (call : Call) : Native Bool := Custody.attempt Call.use answer call

/-! ## The native monitor -/

/-- Which objects a native monitor points to, and what it has done with its stream. In the source it
is the struct `zwirn_session_monitor`. -/
structure NativeMonitor where
  stream : Bool := false
  queue : Bool := false
  scheduled : Bool := false
  started : Bool := false

/-- `SIZE_MAX` and `LONG_MAX`. -/
def sizeMax : Nat := 2 ^ 64 - 1
/-- The largest number of paths that an index of the array can count. -/
def longMax : Nat := 2 ^ 63 - 1

/-- A path is absolute, and it has no NUL. In the source it is `zwirn_valid_absolute_path`. -/
def validAbsolutePath (path : Bytes) : Bool := path.head? = some 0x2F && !path.contains 0

/-- Whether a watch path was created, and whether its allocation failed. In the source it is
`zwirn_create_watch_path`. -/
def createWatchPath (answer : Nat → Bool) (path : Bytes) : Native (Bool × Bool) :=
  if path.length = sizeMax then pure (false, true)
  else do
    let allocated ← attempt answer .allocateRepresentation
    if allocated then do
      let created ← attempt answer .createWatchedPath
      perform .freeRepresentation
      pure (created, false)
    else pure (false, true)

/-- Takes down what a monitor has, in the reverse order. Each part is released only if it is there.
In the source it is `zwirn_destroy_monitor`. -/
def destroyMonitor (monitor : NativeMonitor) : Native Unit := do
  if monitor.stream && monitor.started then
    perform .stopStream
  if monitor.stream && monitor.scheduled then
    perform .invalidateStream
    perform .drainQueue
  if monitor.stream then
    perform .releaseStream
  if monitor.queue then
    perform .releaseQueue
  perform .freeMonitor

/-- The loop over the paths; a failure releases the array. A path that is contained already is not
appended again, but its object is released all the same. -/
def watchPaths (answer : Nat → Bool) : List Bytes → Native (Option MonitorOutcome)
  | [] => pure none
  | path :: paths => do
    let (created, allocationFailed) ← createWatchPath answer path
    if created then do
      let contained ← Custody.ask answer
      if !contained then
        perform .appendWatchedPath
      perform .releaseWatchedPath
      watchPaths answer paths
    else do
      perform .releaseWatchedPaths
      pure (some (if allocationFailed then
        setOutcome monitorAllocationFailed "cannot allocate a watched path"
      else setOutcome monitorPathNotRepresentable
        "a configured watch path is not representable by Core Foundation"))

/-- A failed start: what the monitor has is destroyed. -/
def failStart (monitor : NativeMonitor) (outcome : MonitorOutcome) :
    Native (Option NativeMonitor × MonitorOutcome) := do
  destroyMonitor monitor
  pure (none, outcome)

/-- Starts the stream of a monitor that has one. The stream is scheduled on its queue before it
starts. -/
def startStream (answer : Nat → Bool) : Native (Option NativeMonitor × MonitorOutcome) := do
  let created ← attempt answer .createQueue
  if !created then
    failStart { stream := true }
      (setOutcome monitorQueueCreateFailed "cannot create the FSEvents delivery queue")
  else do
    perform .scheduleStream
    let started ← attempt answer .startStream
    if !started then
      failStart { stream := true, queue := true, scheduled := true }
        (setOutcome monitorStreamStartFailed "FSEventStreamStart failed")
    else
      pure (some { stream := true, queue := true, scheduled := true, started := true },
        setOutcome monitorOk "")

/-- Starts a monitor of paths. Every failure takes down what was there so far, and its message says
what has failed. In the source it is `zwirn_session_monitor_start`. -/
def sessionMonitorStart (answer : Nat → Bool) (paths : List Bytes) :
    Native (Option NativeMonitor × MonitorOutcome) := do
  if paths = [] ∨ longMax < paths.length ∨ !paths.all validAbsolutePath then
    pure (none, setOutcome monitorInvalidArgument "invalid session-monitor argument")
  else
    let allocated ← attempt answer .allocateMonitor
    if !allocated then
      pure (none, setOutcome monitorAllocationFailed "cannot allocate the session monitor")
    else
      let created ← attempt answer .createWatchedPaths
      if !created then
        failStart {} (setOutcome monitorAllocationFailed "cannot allocate the watched-path array")
      else
        match ← watchPaths answer paths with
        | some outcome => failStart {} outcome
        | none =>
          let created ← attempt answer .createStream
          perform .releaseWatchedPaths
          if !created then
            failStart {} (setOutcome monitorStreamCreateFailed "FSEventStreamCreate failed")
          else startStream answer

/-- Stops a monitor. In the source it is `zwirn_session_monitor_stop`. -/
def sessionMonitorStop (monitor : NativeMonitor) : Native Unit := destroyMonitor monitor

/-! ## The owner of the native monitor -/

/-- The operating system of a foreground session. Calls that fail are told by their place in the
run, so a value of `answer` is any combination of failures. -/
structure Os where
  /-- Whether the calls that can fail succeed, and whether a watch path is contained already. -/
  answer : Nat → Bool
  currentDir : Except Str Path
  /-- The bytes of a path. -/
  bytes : Path → Bytes

/-- A relative path is taken from the current directory, once for the whole session. -/
def fixedAbsolute (path : Path) (currentDirectory : Option Path) : Except StartError Path :=
  if path.absolute then .ok path
  else do
    let directory ← okOr currentDirectory
      (.panic "a relative path requires the captured current directory")
    pure (directory.join path)

/-- The two directories that are watched: the source root, and the directory of the document. The
current directory is asked for only if one of the paths is relative. -/
def fixedScopes (os : Os) (sourceRoot document : Path) : Except StartError (Path × Path) := do
  let currentDirectory ←
    if sourceRoot.absolute ∧ document.absolute then pure none
    else mapError .currentDirectory (some <$> os.currentDir)
  let sourceRoot ← fixedAbsolute sourceRoot currentDirectory
  let document ← fixedAbsolute document currentDirectory
  let documentParent ← okOr document.parent (.documentWithoutParent document)
  pure (sourceRoot, documentParent)

/-- A usable stream and its owned callback state. -/
structure SessionMonitor where
  native : Option NativeMonitor

namespace SessionMonitor

/-- Starts watching. The callback state outlives the native monitor, whatever happens. -/
def start (os : Os) (sourceRoot document : Path) : Native (Except StartError SessionMonitor) :=
  match fixedScopes os sourceRoot document with
  | .error error => pure (.error error)
  | .ok (sourceRoot, documentParent) => do
    perform .createContext
    let (native, outcome) ← sessionMonitorStart os.answer [os.bytes sourceRoot, os.bytes documentParent]
    match native with
    | none =>
      perform .dropContext
      pure (.error (.native outcome.failure))
    | some native =>
      if outcome.status ≠ monitorOk then do
        -- A protocol error must still leave no half-live native stream.
        sessionMonitorStop native
        perform .dropContext
        pure (.error (.native outcome.failure))
      else pure (.ok ⟨some native⟩)

/-- Stops watching. The callback state goes last, since the callback borrows it. -/
def drop (monitor : SessionMonitor) : Native Unit := do
  match monitor.native with
  | some native => sessionMonitorStop native
  | none => pure ()
  perform .dropContext

end SessionMonitor

/-! ## Starting and stopping -/

/-- The objects of a session with these objects of a monitor. -/
def Objects.withNative (o : Objects) (monitor watchedPaths : Bool) (stream : Option StreamState)
    (queue delivering : Bool) : Objects :=
  { o with
    context := true, monitor, representation := false, watchedPath := false, watchedPaths, stream,
    queue, delivering }

namespace NativeMonitor

/-- A stream is started on a queue that it is scheduled on. -/
def Consistent (monitor : NativeMonitor) : Prop :=
  (monitor.started → monitor.scheduled) ∧ (monitor.scheduled → monitor.stream ∧ monitor.queue)

instance (monitor : NativeMonitor) : Decidable monitor.Consistent :=
  inferInstanceAs (Decidable (_ ∧ _))

/-- How far the stream of a monitor is, by what the monitor has noted. -/
def streamState (monitor : NativeMonitor) : Option StreamState :=
  if monitor.started then some .started
  else if monitor.scheduled then some .scheduled
  else if monitor.stream then some .created
  else none

/-- A monitor that delivers. -/
def live : NativeMonitor := { stream := true, queue := true, scheduled := true, started := true }

end NativeMonitor

/-- The objects of a session with a monitor. -/
def Objects.withMonitor (o : Objects) (monitor : NativeMonitor) : Objects :=
  o.withNative true false monitor.streamState monitor.queue monitor.started

/-- The objects of a session whose monitor has nothing but the callback state. -/
def Objects.withContext (o : Objects) : Objects := o.withNative false false none false false

/-! ## Failing starts -/

/-- The failure that a start reports when the call has failed. The calls that cannot fail have
none. -/
def Call.failure : Call → Option NativeFailure
  | .allocateMonitor => some ⟨.allocation, "cannot allocate the session monitor".toList⟩
  | .createWatchedPaths => some ⟨.allocation, "cannot allocate the watched-path array".toList⟩
  | .allocateRepresentation => some ⟨.allocation, "cannot allocate a watched path".toList⟩
  | .createWatchedPath => some ⟨.pathRepresentation,
      "a configured watch path is not representable by Core Foundation".toList⟩
  | .createStream => some ⟨.streamCreation, "FSEventStreamCreate failed".toList⟩
  | .createQueue => some ⟨.queueCreation, "cannot create the FSEvents delivery queue".toList⟩
  | .startStream => some ⟨.streamStart, "FSEventStreamStart failed".toList⟩
  | _ => none

/-- The paths that a start accepts: some, as many as an index can count, and all of them absolute
and without a NUL. -/
structure ValidPaths (paths : List Bytes) : Prop where
  nonempty : paths ≠ []
  counted : paths.length ≤ longMax
  absolute : paths.all validAbsolutePath = true

/-- Why a start fails, with the calls that have failed in it: it refuses its arguments, a path is
too long to be allocated, or a call has failed, the first and only one. -/
inductive StartFails (paths : List Bytes) (failure : NativeFailure) : List Call → Prop
  | argument : ¬ ValidPaths paths →
      failure = ⟨.invalidArgument, "invalid session-monitor argument".toList⟩ →
      StartFails paths failure []
  | length {path : Bytes} : ValidPaths paths → path ∈ paths → path.length = sizeMax →
      failure = ⟨.allocation, "cannot allocate a watched path".toList⟩ → StartFails paths failure []
  | call {call : Call} : ValidPaths paths → call.failure = some failure →
      StartFails paths failure [call]

/-- A message that fits into the outcome is reported as it is, with the kind of its status. -/
theorem setOutcome_failure {status : Int} {message : String}
    (hfits : (encode message.toList).length < 1024 ∧ 0 ∉ encode message.toList) :
    (setOutcome status message).failure = ⟨failureKind status, message.toList⟩ := by
  rw [MonitorOutcome.failure, setOutcome, boundedString_copyBytes hfits.1 hfits.2]

/-- What a failed call is reported with is the failure of the call. -/
theorem Call.failure_eq {call : Call} {status : Int} {message : String}
    (h : call.failure = some ⟨failureKind status, message.toList⟩)
    (hfits : (encode message.toList).length < 1024 ∧ 0 ∉ encode message.toList) :
    call.failure = some (setOutcome status message).failure := by
  rw [h, setOutcome_failure hfits]

section
variable {o : Objects} {answer : Nat → Bool} {monitor : NativeMonitor} {outcome : MonitorOutcome}
  {failed : List Call} {paths : List Bytes}

/-- A call that the protocol allows holds what it leaves. -/
theorem perform_yields {call : Call} {o o' : Objects} (h : call.use o = some o') :
    Run.Yields (Custody.Holds o failed) (perform call) fun _ => Custody.Holds o' failed :=
  Custody.perform_yields h

/-- So does a call that may fail: it leaves the objects as they were then, and is noted as
failed. -/
theorem attempt_yields {call : Call} {o o' : Objects} (h : call.use o = some o') :
    Run.Yields (Custody.Holds o failed) (attempt answer call) fun succeeds =>
      if succeeds then Custody.Holds o' failed else Custody.Holds o (failed ++ [call]) :=
  Custody.attempt_yields h

/-- Destroying a monitor gives back what it has, in an order the protocol allows. No call of it can
fail. -/
theorem destroyMonitor_yields (h : monitor.Consistent) :
    Run.Yields (Custody.Holds (o.withMonitor monitor) failed) (destroyMonitor monitor) fun _ =>
      Custody.Holds o.withContext failed := by
  obtain ⟨stream, queue, scheduled, started⟩ := monitor
  rintro ⟨_, answers, _⟩ ⟨rfl, rfl⟩
  refine ⟨(), ⟨_, answers, _⟩, ?_, rfl, rfl⟩
  cases stream <;> cases queue <;> cases scheduled <;> cases started <;>
    first
    | rfl
    | exact absurd h (by decide)

/-- What a watch path is created with. Where it is not, its allocation has failed, as the result
tells, or its creation. -/
theorem createWatchPath_yields {path : Bytes} :
    Run.Yields (Custody.Holds (o.withNative true true none false false) failed)
      (createWatchPath answer path) fun r s => match r with
        | (true, _) => Custody.Holds
            { o.withNative true true none false false with watchedPath := true } failed s
        | (false, true) => ∃ new,
            Custody.Holds (o.withNative true true none false false) (failed ++ new) s ∧
              (path.length = sizeMax ∧ new = [] ∨ new = [.allocateRepresentation])
        | (false, false) => Custody.Holds (o.withNative true true none false false)
            (failed ++ [.createWatchedPath]) s := by
  unfold createWatchPath
  split
  · next hlength => exact .pure fun _ hs => ⟨[], by rwa [List.append_nil], .inl ⟨hlength, rfl⟩⟩
  refine (attempt_yields rfl).bind fun allocated => ?_
  cases allocated with
  | false => exact .pure fun _ hs => ⟨_, hs, .inr rfl⟩
  | true =>
    refine (attempt_yields rfl).bind fun created => ?_
    cases created <;> exact (perform_yields rfl).bind fun _ => .pure fun _ hs => hs

/-- The loop over the paths keeps the array, or releases it and reports why it has failed. The
induction is on the paths that are left, all of which are among those of the monitor. -/
theorem watchPaths_yields (hvalid : ValidPaths paths) (rest : List Bytes)
    (hrest : ∀ path ∈ rest, path ∈ paths) :
    Run.Yields (Custody.Holds (o.withNative true true none false false) failed)
      (watchPaths answer rest) fun failure s => match failure with
        | none => Custody.Holds (o.withNative true true none false false) failed s
        | some outcome => ∃ new, StartFails paths outcome.failure new ∧
            Custody.Holds (o.withMonitor {}) (failed ++ new) s := by
  induction rest with
  | nil => exact .pure fun _ hs => hs
  | cons path rest ih =>
    refine createWatchPath_yields.bind fun r => ?_
    obtain ⟨created, allocationFailed⟩ := r
    cases created with
    | false =>
      cases allocationFailed with
      | false =>
        refine (perform_yields rfl).bind fun _ => .pure fun _ hs => ⟨_, .call hvalid ?_, hs⟩
        exact Call.failure_eq (by decide) (by decide +kernel)
      | true =>
        rintro s ⟨new, hs, hnew⟩
        refine ((perform_yields rfl).bind fun _ => .pure fun _ ht => ⟨new, ?_, ht⟩) s hs
        rcases hnew with ⟨hlength, rfl⟩ | rfl
        · exact .length hvalid (hrest path List.mem_cons_self) hlength
            (setOutcome_failure (by decide +kernel))
        · exact .call hvalid (Call.failure_eq (by decide) (by decide +kernel))
    | true =>
      have hcontinue := ih fun path hpath => hrest path (List.mem_cons_of_mem _ hpath)
      refine Custody.ask_yields.bind fun contained => ?_
      cases contained with
      | false =>
        exact (perform_yields rfl).bind fun _ => (perform_yields rfl).bind fun _ => hcontinue
      | true => exact (perform_yields rfl).bind fun _ => hcontinue

/-- A start returns a monitor that delivers, with no failed call, or it fails with nothing held and
reports why. -/
def Started (o : Objects) (failed : List Call) (paths : List Bytes)
    (r : Option NativeMonitor × MonitorOutcome) (s : Custody Objects Call) : Prop :=
  match r.1 with
  | some monitor =>
    monitor = .live ∧ r.2.status = monitorOk ∧ Custody.Holds (o.withMonitor .live) failed s
  | none => ∃ new, StartFails paths r.2.failure new ∧ Custody.Holds o.withContext (failed ++ new) s

/-- A start that has failed destroys its monitor and reports what has failed. -/
theorem failStart_yields {new : List Call} (monitor : NativeMonitor) (h : monitor.Consistent)
    (hfails : StartFails paths outcome.failure new) :
    Run.Yields (Custody.Holds (o.withMonitor monitor) (failed ++ new)) (failStart monitor outcome)
      (Started o failed paths) :=
  (destroyMonitor_yields h).bind fun _ => .pure fun _ hs => ⟨new, hfails, hs⟩

/-- A start that a call has failed in reports the failure of the call. -/
theorem failStart_call_yields {call : Call} {status : Int} {message : String}
    (hvalid : ValidPaths paths)
    (monitor : NativeMonitor) (h : monitor.Consistent)
    (hfailure : call.failure = some ⟨failureKind status, message.toList⟩)
    (hfits : (encode message.toList).length < 1024 ∧ 0 ∉ encode message.toList) :
    Run.Yields (Custody.Holds (o.withMonitor monitor) (failed ++ [call]))
      (failStart monitor (setOutcome status message)) (Started o failed paths) :=
  failStart_yields monitor h (.call hvalid (Call.failure_eq hfailure hfits))

/-- The start of the stream, from a stream that was created. If its queue or its start fails, what
there is of the monitor is destroyed. -/
theorem startStream_yields (hvalid : ValidPaths paths) :
    Run.Yields (Custody.Holds (o.withMonitor { stream := true }) failed) (startStream answer)
      (Started o failed paths) := by
  refine (attempt_yields rfl).bind fun created => ?_
  cases created with
  | false => exact failStart_call_yields hvalid _ (by decide) (by decide) (by decide +kernel)
  | true =>
    refine (perform_yields rfl).bind fun _ => (attempt_yields rfl).bind fun started => ?_
    cases started with
    | false =>
      exact failStart_call_yields hvalid { stream := true, queue := true, scheduled := true }
        (by decide) (by decide) (by decide +kernel)
    | true => exact .pure fun _ hs => ⟨rfl, rfl, hs⟩

/-- However the system answers, the native start misuses no object. The proof follows the calls in
their order. Behind each of them it is known which objects there are, and a failed call is followed
by the release of exactly these. -/
theorem sessionMonitorStart_yields (paths : List Bytes) :
    Run.Yields (Custody.Holds o.withContext failed) (sessionMonitorStart answer paths)
      (Started o failed paths) := by
  unfold sessionMonitorStart
  split
  · next hinvalid =>
    refine .pure fun _ hs => ⟨[], .argument (fun hvalid => ?_) (setOutcome_failure (by decide +kernel)),
      by rwa [List.append_nil]⟩
    obtain ⟨hnonempty, hcounted, habsolute⟩ := hvalid
    rw [habsolute] at hinvalid
    rcases hinvalid with hnil | hlong | hpath
    · exact hnonempty hnil
    · exact absurd hcounted (Nat.not_le.2 hlong)
    · cases hpath
  next haccepted =>
  simp only [not_or, Nat.not_lt, Bool.not_eq_true, Bool.not_eq_false'] at haccepted
  have hvalid : ValidPaths paths := ⟨haccepted.1, haccepted.2.1, haccepted.2.2⟩
  refine (attempt_yields rfl).bind fun allocated => ?_
  cases allocated with
  | false =>
    exact .pure fun _ hs => ⟨_, .call hvalid (Call.failure_eq (by decide) (by decide +kernel)), hs⟩
  | true =>
    refine (attempt_yields rfl).bind fun created => ?_
    cases created with
    | false => exact failStart_call_yields hvalid {} (by decide) (by decide) (by decide +kernel)
    | true =>
      refine (watchPaths_yields hvalid paths fun _ hpath => hpath).bind fun failure => ?_
      cases failure with
      | some outcome =>
        rintro s ⟨new, hfails, hs⟩
        exact failStart_yields {} (by decide) hfails s hs
      | none =>
        refine (attempt_yields rfl).bind fun created => ?_
        cases created with
        | false =>
          exact (perform_yields rfl).bind fun _ =>
            failStart_call_yields hvalid {} (by decide) (by decide) (by decide +kernel)
        | true => exact (perform_yields rfl).bind fun _ => startStream_yields hvalid

end

/-- The objects of a session without a monitor. -/
def Objects.withoutMonitor (o : Objects) : Objects := { o.withContext with context := false }

section
variable {o : Objects} {failed : List Call}

/-- The drop of a monitor that delivers stops it and gives back what it has. -/
theorem SessionMonitor.drop_yields : Run.Yields (Custody.Holds (o.withMonitor .live) failed)
    (SessionMonitor.drop ⟨some .live⟩) fun _ => Custody.Holds o.withoutMonitor failed :=
  (destroyMonitor_yields (by decide)).bind fun _ => perform_yields rfl

/-- The callback state can be created while the sender is there that it is made from. -/
theorem createContext_use (h : o.sender) :
    Call.createContext.use o.withoutMonitor = some o.withContext := by
  obtain ⟨_, _, _, _, _, _, _, _, sender, _, _, _⟩ := o
  obtain rfl : sender = true := h
  rfl

/-- The paths that the native monitor is started on. -/
def nativePaths (os : Os) (scopes : Path × Path) : List Bytes :=
  [os.bytes scopes.1, os.bytes scopes.2]

/-- However the system answers, a start misuses no object: it returns a monitor that delivers, or
fails with nothing held. It fails because there are no scopes, or because the native start on the
scopes has failed. -/
theorem SessionMonitor.start_yields (h : o.sender) (os : Os) (sourceRoot document : Path) :
    Run.Yields (Custody.Holds o.withoutMonitor failed) (SessionMonitor.start os sourceRoot document)
      fun r s => match r with
        | .ok monitor => monitor = ⟨some .live⟩ ∧ (fixedScopes os sourceRoot document).isOk ∧
            Custody.Holds (o.withMonitor .live) failed s
        | .error error => ∃ new, Custody.Holds o.withoutMonitor (failed ++ new) s ∧
            (fixedScopes os sourceRoot document = .error error ∧ new = [] ∨
              ∃ scopes failure, fixedScopes os sourceRoot document = .ok scopes ∧
                error = .native failure ∧ StartFails (nativePaths os scopes) failure new) := by
  unfold SessionMonitor.start
  cases fixedScopes os sourceRoot document with
  | error error => exact .pure fun _ hs => ⟨[], by rwa [List.append_nil], .inl ⟨rfl, rfl⟩⟩
  | ok scopes =>
    refine (perform_yields (createContext_use h)).bind fun _ =>
      (sessionMonitorStart_yields (nativePaths os scopes)).bind fun r => ?_
    obtain ⟨native, outcome⟩ := r
    cases native with
    | none =>
      rintro s ⟨new, hfails, hs⟩
      exact (perform_yields rfl).bind (fun _ => .pure fun _ ht =>
        ⟨new, ht, .inr ⟨scopes, outcome.failure, rfl, rfl, hfails⟩⟩) s hs
    | some native =>
      rintro s ⟨rfl, hstatus, hs⟩
      dsimp only at hstatus ⊢
      rw [if_neg (not_not.2 hstatus)]
      exact ⟨_, s, rfl, rfl, rfl, hs⟩

end

end Zwirn.Live
