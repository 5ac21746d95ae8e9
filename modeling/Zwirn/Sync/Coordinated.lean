import Zwirn.Lib.Foreign
import Zwirn.Lib.Utf8
import Zwirn.Sync.Files

/-!
# Coordinated accesses

On macOS a body runs in a callback of the file coordinator, which is foreign code: it may call back
with any path and any number of times, may report an error behind the body, and may raise an
exception. `coordinated` passes the body to the coordinator and reads its outcome. Whatever the
coordinator does, these accesses are accesses under an `AccessPolicy` (`coordinated_eq_around`): the
body runs once and its completion is the result, or it does not run. The code is in
`src/access/macos.rs` and `native/macos/coordinated_access.m`.
-/

namespace Zwirn.Sync

open Lib

/-! ## Outcomes of the bridge -/

/-- The statuses are those of `coordinated_access.h`. -/
def accessPathNotRepresentable : Int := 1
/-- The coordinator refused the access. -/
def accessCoordinationFailed : Int := 2
/-- The coordinator called back with another path. -/
def accessorPathChanged : Int := 3
/-- What an outcome is until something says otherwise. -/
def accessInternalFailure : Int := 4

/-- What a bounded buffer holds of a C string, without the byte that ends it. In the source it is
`zwirn_copy_bytes`. -/
def copyBytes (capacity : Nat) (source : Bytes) : Bytes :=
  (source.take (capacity - 1)).takeWhile (· ≠ 0)

/-- `none` is a string without a UTF-8 form. In the source it is `zwirn_copy_string`. -/
def copyString (capacity : Nat) (source : Option Bytes) : Bytes :=
  match source with
  | some bytes => copyBytes capacity bytes
  | none => []

/-- The text in a buffer of the bridge, up to its first zero byte. Bytes that are no text are
replaced. -/
def boundedString (buffer : Bytes) : Str := fromUtf8Lossy (buffer.takeWhile (· ≠ 0))

/-- A text that fits into the buffer comes through it. -/
theorem boundedString_copyBytes {text : Str} {capacity : Nat} (h : (encode text).length < capacity)
    (hzero : 0 ∉ encode text) : boundedString (copyBytes capacity (encode text)) = text := by
  have hall : (encode text).takeWhile (· ≠ 0) = encode text := by
    rw [List.takeWhile_eq_self_iff]
    intro b hb
    simpa using fun h0 : b = 0 => hzero (h0 ▸ hb)
  rw [copyBytes, List.take_of_length_le (by omega), hall, boundedString, hall, fromUtf8Lossy_encode]

/-- What the bridge reports; only read where no completion was recorded. -/
structure NativeOutcome where
  status : Int
  nativeCode : Int
  nativeDomain : Bytes
  message : Bytes

namespace NativeOutcome

/-- The outcome before the call: a failure of the bridge itself. In the source it is
`zwirn_clear_outcome`. -/
def new : NativeOutcome := ⟨accessInternalFailure, 0, [], []⟩

/-- The domain of the error, as text. -/
def domain (outcome : NativeOutcome) : Str := boundedString outcome.nativeDomain

/-- The message of the error, as text. -/
def messageText (outcome : NativeOutcome) : Str := boundedString outcome.message

/-- The message, or the status where the bridge gave no message. -/
def messageOrStatus (outcome : NativeOutcome) : Str :=
  let message := outcome.messageText
  if message = [] then
    "native bridge returned status ".toList ++ (toString outcome.status).toList ++
      " without invoking the body".toList
  else message

end NativeOutcome

/-! ## Foundation -/

/-- What the bridge reads of an error: its domain, its code and its description. -/
structure NSError where
  code : Int
  domain : Option Bytes
  localizedDescription : Option Bytes

/-- What the bridge reads of an exception: its reason, if it has one. -/
structure NSException where
  name : Option Bytes
  reason : Option Bytes

/-- The operating system behind the bridge. The accessor may be called once, several times or never,
and it may throw. All of this is left to the field `coordinate`. -/
structure Foundation (σ : Type) where
  currentDir : Run σ Str Path
  /-- The bytes of a path. -/
  bytes : Path → Bytes
  /-- The filesystem representation of the URL for a path. -/
  representation : Bytes → Except NSException (Option Bytes)
  /-- Calls the accessor back with the filesystem representations of the URLs it is given. -/
  coordinate : AccessKind → Bytes → σ → Foreign σ (Option Bytes) (Except NSException (Option NSError))
  /-- Gives the URL and the coordinator back. -/
  release : Run σ Unit Unit

namespace Foundation
variable {σ : Type}

/-- The operating system does nothing behind a body. -/
structure Still (F : Foundation σ) : Prop where
  coordinate : ∀ kind path s, (F.coordinate kind path s).Still
  release : ∀ s, (F.release s).2 = s

end Foundation

/-! ## The bridge -/

/-- Why a thread stops. -/
inductive Panic (π : Type)
  /-- The body panicked. -/
  | body (payload : π)
  | internalFailure (domain message : Str)
  | unknownStatus (status : Int)

section
variable {σ π α : Type}

/-- The body of an access, until the bridge runs it, and what it came to. -/
structure BodyState (σ π α : Type) where
  body : Option (Run σ π α)
  completion : Option (Except π α)

/-- The body runs at most once, and its completion is kept. -/
def invokeBody (state : BodyState σ π α) (s : σ) : BodyState σ π α × σ :=
  match state.body with
  | some body => (⟨none, some (body s).1⟩, (body s).2)
  | none => (state, s)

/-- The notes the accessor takes where it does not invoke the body. -/
def accessorOutcome (path : Bytes) (accessorPath : Option Bytes) (outcome : NativeOutcome) :
    NativeOutcome :=
  match accessorPath with
  | none => { outcome with message := copyBytes 1024 (encode
      "Foundation supplied an accessor URL without a filesystem representation".toList) }
  | some found => if found = path then outcome else { outcome with status := accessorPathChanged }

/-- The block that the bridge hands to the coordinator. It runs the body only if the path is the one
that was claimed, and it may be called any number of times. In the source it is the block of
`zwirn_coordinated_access`. -/
def accessor (path : Bytes) (accessorPath : Option Bytes) (b : BodyState σ π α × NativeOutcome)
    (s : σ) : (BodyState σ π α × NativeOutcome) × σ :=
  if accessorPath = some path then (((invokeBody b.1 s).1, b.2), (invokeBody b.1 s).2)
  else ((b.1, accessorOutcome path accessorPath b.2), s)

/-- An exception becomes a failed coordination, with its reason as the message. -/
def NativeOutcome.raised (outcome : NativeOutcome) (exception : NSException) : NativeOutcome :=
  { outcome with
    status := accessInternalFailure
    nativeDomain := copyString 128 exception.name
    message := copyString 1024 exception.reason }

/-- Reads how the coordination ended. An error of the coordinator counts only if nothing else was
noted before. -/
def NativeOutcome.coordinated (outcome : NativeOutcome) :
    Except NSException (Option NSError) → NativeOutcome
  | .error exception => outcome.raised exception
  | .ok none => outcome
  | .ok (some error) =>
    if outcome.status = accessInternalFailure then
      { status := accessCoordinationFailed
        nativeCode := error.code
        nativeDomain := copyString 128 error.domain
        message := copyString 1024 error.localizedDescription }
    else outcome

/-- Gives back what the access used, where an exception may escape. An exception here is an internal
failure, whatever the access has done. -/
def releasing (F : Foundation σ) (outcome : NativeOutcome) (s : σ) : NativeOutcome × σ :=
  match F.release s with
  | (.ok (), t) => (outcome, t)
  | (.error (), t) => ({ outcome with
      status := accessInternalFailure
      nativeDomain := copyBytes 128 (encode "NSException".toList)
      message := copyBytes 1024
        (encode "native exception escaped coordinated-access cleanup".toList) }, t)

/-- The function of the bridge: it sets up the coordinator, coordinates with the accessor, and
releases what it holds, whether or not something was thrown. -/
def zwirnCoordinatedAccess (F : Foundation σ) (path : Bytes) (kind : AccessKind)
    (state : BodyState σ π α) (s : σ) : BodyState σ π α × NativeOutcome × σ :=
  let outcome := NativeOutcome.new
  if path = [] then
    (state, { outcome with
      message := copyBytes 1024 (encode "invalid coordinated-access argument".toList) }, s)
  else match F.representation path with
    | .error exception => (state, releasing F (outcome.raised exception) s)
    | .ok representation =>
      if representation ≠ some path then
        (state, releasing F { outcome with status := accessPathNotRepresentable } s)
      else
        let ended := (F.coordinate kind path s).run (accessor path) (state, outcome)
        (ended.1.1, releasing F (ended.1.2.coordinated ended.2.2) ended.2.1)

/-! ## The wrapper -/

/-- Why a coordinated access does not return. -/
inductive Stop (π : Type)
  | failed (failure : CoordinatedAccessFailure)
  | panicked (panic : Panic π)

/-- The path to claim. The file itself may not be there yet, and then its directory is resolved. -/
def absoluteClaimPath (F : Foundation σ) (path : Path) : Run σ CoordinationFailure Path :=
  if path.absolute then pure path
  else do
    let cwd ← F.currentDir.mapError fun error => .pathResolution (String.ofList error)
    pure (cwd.join path)

/-- What the outcome of the bridge says of the access. A body that has run decides, whatever the
bridge reports. -/
def finishCoordinated (namedPath : Path) (kind : AccessKind) (state : BodyState σ π α)
    (outcome : NativeOutcome) : Except (Stop π) α :=
  match state.completion with
  | some completion => mapError (fun payload => .panicked (.body payload)) completion
  | none =>
    if outcome.status = accessInternalFailure then
      .error (.panicked (.internalFailure outcome.domain outcome.messageOrStatus))
    else if outcome.status = accessPathNotRepresentable then
      .error (.failed ⟨kind, namedPath, .pathNotRepresentable⟩)
    else if outcome.status = accessCoordinationFailed then
      .error (.failed ⟨kind, namedPath, .refused (String.ofList outcome.domain) outcome.nativeCode
        (String.ofList outcome.messageText)⟩)
    else if outcome.status = Sync.accessorPathChanged then
      .error (.failed ⟨kind, namedPath, .accessorPathChanged⟩)
    else .error (.panicked (.unknownStatus outcome.status))

/-- The native call with a body, and what it says. -/
def callNative (F : Foundation σ) (namedPath : Path) (kind : AccessKind) (bytes : Bytes)
    (body : Run σ π α) : Run σ (Stop π) α := fun s =>
  let ended := zwirnCoordinatedAccess F bytes kind ⟨some body, none⟩ s
  (finishCoordinated namedPath kind ended.1 ended.2.1, ended.2.2)

/-- One coordinated access: the claim, the call of the bridge, and its outcome. A path that has no
bytes, or a NUL among them, is refused in front of the call. -/
def coordinated (F : Foundation σ) (namedPath : Path) (kind : AccessKind) (body : Run σ π α) :
    Run σ (Stop π) α := do
  let claimedPath ← (absoluteClaimPath F namedPath).mapError fun reason =>
    .failed ⟨kind, namedPath, reason⟩
  let bytes := F.bytes claimedPath
  if bytes = [] ∨ 0 ∈ bytes then
    .fail (.failed ⟨kind, namedPath, .pathNotRepresentable⟩)
  else callNative F namedPath kind bytes body

/-! ## What the bridge guarantees -/

/-- The statuses the bridge reports. -/
def NativeOutcome.Known (outcome : NativeOutcome) : Prop :=
  outcome.status = accessPathNotRepresentable ∨ outcome.status = accessCoordinationFailed ∨
    outcome.status = accessorPathChanged ∨ outcome.status = accessInternalFailure

variable {F : Foundation σ} {path : Bytes} {outcome : NativeOutcome}

/-- A failure of the bridge itself is a known status. -/
theorem NativeOutcome.known_of_internal (h : outcome.status = accessInternalFailure) :
    outcome.Known := .inr (.inr (.inr h))

/-- The status before the call is a known one. -/
theorem NativeOutcome.new_known : NativeOutcome.new.Known := known_of_internal rfl

/-- The accessor leaves a known status behind, whatever path it was called with. -/
theorem accessorOutcome_known (accessorPath : Option Bytes) (h : outcome.Known) :
    (accessorOutcome path accessorPath outcome).Known := by
  unfold accessorOutcome
  cases accessorPath with
  | none => exact h
  | some found =>
    dsimp only
    split
    · exact h
    · exact .inr (.inr (.inl rfl))

/-- So does the end of the coordination, with an error or without one. -/
theorem NativeOutcome.Known.coordinated (h : outcome.Known)
    (result : Except NSException (Option NSError)) :
    (outcome.coordinated result).Known := by
  unfold NativeOutcome.coordinated
  rcases result with exception | _ | error
  · exact known_of_internal rfl
  · exact h
  · dsimp only
    split
    · exact .inr (.inl rfl)
    · exact h

/-- So does releasing what the bridge holds. -/
theorem NativeOutcome.Known.releasing (h : outcome.Known) (s : σ) :
    (releasing F outcome s).1.Known := by
  unfold Sync.releasing
  split
  · exact h
  · exact known_of_internal rfl

/-- Releasing does to the state what the system does there, whatever the outcome was before. -/
theorem releasing_state (s : σ) : (releasing F outcome s).2 = (F.release s).2 := by
  unfold releasing
  split <;> simp [*]

/-- Before the first callback with the path itself the accessor only takes notes. -/
theorem accessor_before {body : Run σ π α} (accessorPath : Option Bytes)
    (b : BodyState σ π α × NativeOutcome) (c : NativeOutcome) (s : σ) (hb : b = (⟨some body, none⟩, c))
    (hne : accessorPath ≠ some path) :
    (accessor path accessorPath b s).1 = (⟨some body, none⟩, accessorOutcome path accessorPath c) ∧
      (accessor path accessorPath b s).2 = s := by
  subst hb
  unfold accessor
  rw [if_neg hne]
  exact ⟨rfl, rfl⟩

/-- Behind the body the accessor does nothing. -/
theorem accessor_after {completion : Except π α} (accessorPath : Option Bytes)
    (b : BodyState σ π α × NativeOutcome) (s : σ) (hb : b.1 = ⟨none, some completion⟩) :
    (accessor path accessorPath b s).1.1 = ⟨none, some completion⟩ ∧
      (accessor path accessorPath b s).2 = s := by
  unfold accessor
  split
  · rw [hb]
    exact ⟨rfl, rfl⟩
  · exact ⟨hb, rfl⟩

/-- The coordination runs a body once, wherever it does, or leaves each body alone. The first
callback with the claimed path runs the body and takes it away, so a later one has nothing to run.
The other callbacks leave a known status. -/
theorem coordinate_run_cases (F : Foundation σ) (path : Bytes) (kind : AccessKind) (s : σ) :
    (∃ (u : σ) (after : σ → σ), (F.Still → ∀ t, after t = t) ∧ ∀ (α : Type) (body : Run σ π α),
      ((F.coordinate kind path s).run (accessor path) (⟨some body, none⟩, .new)).1.1 =
          ⟨none, some (body u).1⟩ ∧
        ((F.coordinate kind path s).run (accessor path) (⟨some body, none⟩, .new)).2.1 =
          after (body u).2) ∨
    ∃ outcome t result, outcome.Known ∧ ∀ (α : Type) (body : Run σ π α),
      (F.coordinate kind path s).run (accessor path) (⟨some body, none⟩, .new) =
        ((⟨some body, none⟩, outcome), t, result) := by
  cases hcall : (F.coordinate kind path s).firstCall (· = some path) with
  | some found =>
    obtain ⟨u, arg, next⟩ := found
    refine .inl ⟨u, fun t => (next t).final, ?_, fun α body => ?_⟩
    · intro hstill
      exact (hstill.coordinate kind path s).final_next hcall
    have hbefore : ∀ arg (b : BodyState σ π α × NativeOutcome) s, b.1 = ⟨some body, none⟩ →
        arg ≠ some path → (accessor path arg b s).1.1 = ⟨some body, none⟩ ∧
          (accessor path arg b s).2 = s := by
      intro arg b s hb hne
      obtain ⟨hb', hs⟩ := accessor_before arg b b.2 s (Prod.ext hb rfl) hne
      exact ⟨congrArg Prod.fst hb', hs⟩
    obtain ⟨b, hb, rfl, hrun⟩ := Foreign.run_firstCall hbefore hcall
      (b := (⟨some body, none⟩, .new)) rfl
    have hinvoked : accessor path (some path) b u =
        ((⟨none, some (body u).1⟩, b.2), (body u).2) := by
      rw [accessor, if_pos rfl, hb]
      rfl
    rw [hrun, hinvoked]
    exact Foreign.run_inert (fun arg b s hb => accessor_after arg b s hb) (next (body u).2)
      (b := (⟨none, some (body u).1⟩, b.2)) rfl
  | none =>
    have hknown : ((F.coordinate kind path s).run (fun arg c s => (accessorOutcome path arg c, s))
        .new).1.Known := by
      refine (Foreign.run_inert (P := NativeOutcome.Known) ?_ _ NativeOutcome.new_known).1
      intro arg c s hc
      exact ⟨accessorOutcome_known arg hc, rfl⟩
    obtain ⟨outcome, t, result, hnotes⟩ : ∃ outcome t result, (F.coordinate kind path s).run
        (fun arg c s => (accessorOutcome path arg c, s)) .new = (outcome, t, result) := ⟨_, _, _, rfl⟩
    rw [hnotes] at hknown
    refine .inr ⟨outcome, t, result, hknown, fun α body => ?_⟩
    obtain ⟨hb, hs⟩ := Foreign.run_of_firstCall_eq_none
      (fun arg b c s hb hne => accessor_before arg b c s hb hne) hcall
      (b := ((⟨some body, none⟩ : BodyState σ π α), .new)) rfl
    rw [hnotes] at hb hs
    exact Prod.ext hb hs

/-- A native call runs the body once and keeps its completion, or leaves it alone. Before the
coordination nothing is run, and behind it only the outcome is filled in. -/
theorem zwirnCoordinatedAccess_cases (F : Foundation σ) (path : Bytes) (kind : AccessKind) (s : σ) :
    (∃ (u : σ) (after : σ → σ), (F.Still → ∀ t, after t = t) ∧ ∀ (α : Type) (body : Run σ π α),
      (zwirnCoordinatedAccess F path kind ⟨some body, none⟩ s).1 = ⟨none, some (body u).1⟩ ∧
        (zwirnCoordinatedAccess F path kind ⟨some body, none⟩ s).2.2 = after (body u).2) ∨
    ∃ outcome t, outcome.Known ∧ ∀ (α : Type) (body : Run σ π α),
      zwirnCoordinatedAccess F path kind ⟨some body, none⟩ s = (⟨some body, none⟩, outcome, t) := by
  unfold zwirnCoordinatedAccess
  dsimp only
  split
  · exact .inr ⟨_, _, NativeOutcome.known_of_internal rfl, fun _ _ => rfl⟩
  cases F.representation path with
  | error exception =>
    exact .inr ⟨_, _, (NativeOutcome.known_of_internal rfl : (NativeOutcome.new.raised exception).Known)
      |>.releasing s, fun _ _ => rfl⟩
  | ok representation =>
    dsimp only
    split
    · exact .inr ⟨_, _, NativeOutcome.Known.releasing (.inl rfl) s, fun _ _ => rfl⟩
    rcases coordinate_run_cases F path kind s with ⟨u, after, hstill, hruns⟩ |
      ⟨outcome, t, result, hknown, hruns⟩
    · refine .inl ⟨u, fun t => (F.release (after t)).2, ?_, fun α body => ?_⟩
      · intro hF t
        exact (hF.release _).trans (hstill hF t)
      · obtain ⟨hstate, hafter⟩ := hruns α body
        exact ⟨hstate, by rw [releasing_state, hafter]⟩
    · refine .inr ⟨(releasing F (outcome.coordinated result) t).1,
        (releasing F (outcome.coordinated result) t).2,
        (hknown.coordinated result).releasing t, fun α body => ?_⟩
      rw [hruns α body]

/-- How an access of a kind to a path is refused: the failure names it, or the bridge broke down. -/
inductive Stop.Refuses (kind : AccessKind) (path : Path) : Stop π → Prop
  | failed (reason : CoordinationFailure) : Refuses kind path (.failed ⟨kind, path, reason⟩)
  | internalFailure (domain message : Str) :
      Refuses kind path (.panicked (.internalFailure domain message))

/-- Without a completion the access is refused. -/
theorem finishCoordinated_refuses {namedPath : Path} {kind : AccessKind}
    (h : outcome.Known) : ∃ stop : Stop π, stop.Refuses kind namedPath ∧
      ∀ (α : Type) (body : Option (Run σ π α)),
        finishCoordinated namedPath kind ⟨body, none⟩ outcome = .error stop := by
  unfold finishCoordinated
  dsimp only
  rcases h with h | h | h | h <;> rw [h]
  · exact ⟨_, .failed _, fun _ _ => rfl⟩
  · exact ⟨_, .failed _, fun _ _ => rfl⟩
  · exact ⟨_, .failed _, fun _ _ => rfl⟩
  · exact ⟨_, .internalFailure _ _, fun _ _ => rfl⟩

/-- How an access goes, once it is decided: the body runs once and its completion is the result, or
it does not run. -/
def decidedAccess (granted : Except (Stop π) Unit) (u : σ) (after : σ → σ) (body : Run σ π α) :
    Except (Stop π) α × σ :=
  match granted with
  | .ok () => (mapError (fun payload => .panicked (.body payload)) (body u).1, after (body u).2)
  | .error stop => (.error stop, u)

/-- Whether, where and how often a body runs is decided without the body. So a coordinated access is
the grant of an access, and the body behind it. -/
theorem coordinated_decided (F : Foundation σ) (kind : AccessKind) (namedPath : Path) (s : σ) :
    ∃ (granted : Except (Stop π) Unit) (u : σ) (after : σ → σ), (F.Still → ∀ t, after t = t) ∧
      (∀ stop, granted = .error stop → stop.Refuses kind namedPath) ∧
      ∀ (α : Type) (body : Run σ π α),
        coordinated F namedPath kind body s = decidedAccess granted u after body := by
  have hrefused : ∀ (stop : Stop π) t, stop.Refuses kind namedPath →
      (∀ (α : Type) (body : Run σ π α), coordinated F namedPath kind body s = (.error stop, t)) →
      ∃ (granted : Except (Stop π) Unit) (u : σ) (after : σ → σ), (F.Still → ∀ t, after t = t) ∧
        (∀ stop, granted = .error stop → stop.Refuses kind namedPath) ∧
        ∀ (α : Type) (body : Run σ π α),
          coordinated F namedPath kind body s = decidedAccess granted u after body := by
    intro stop t hstop hruns
    refine ⟨.error stop, t, id, fun _ _ => rfl, fun stop' heq => ?_, hruns⟩
    cases heq
    exact hstop
  cases hclaim : absoluteClaimPath F namedPath s with
  | mk r t =>
    have hpath := Run.mapError_apply (fun reason => (.failed ⟨kind, namedPath, reason⟩ : Stop π))
      (absoluteClaimPath F namedPath) s
    rw [hclaim] at hpath
    cases r with
    | error reason =>
      refine hrefused _ t (.failed reason) fun α body => ?_
      rw [coordinated, Run.bind_of_error hpath]
    | ok claimedPath =>
      by_cases hbytes : F.bytes claimedPath = [] ∨ 0 ∈ F.bytes claimedPath
      · refine hrefused _ t (.failed .pathNotRepresentable) fun α body => ?_
        rw [coordinated, Run.bind_of_ok hpath, if_pos hbytes, Run.fail_apply]
      rcases zwirnCoordinatedAccess_cases F (F.bytes claimedPath) kind t with
        ⟨u, after, hstill, hruns⟩ | ⟨outcome, v, hknown, hruns⟩
      · refine ⟨.ok (), u, after, hstill, fun stop heq => ?_, fun α body => ?_⟩
        · cases heq
        obtain ⟨hstate, hafter⟩ := hruns α body
        rw [coordinated, Run.bind_of_ok hpath, if_neg hbytes, callNative]
        dsimp only
        rw [hstate, hafter]
        rfl
      · obtain ⟨stop, hstop, hfinish⟩ : ∃ stop : Stop π, stop.Refuses kind namedPath ∧
            ∀ (α : Type) (body : Option (Run σ π α)),
              finishCoordinated namedPath kind ⟨body, none⟩ outcome = .error stop :=
          finishCoordinated_refuses hknown
        refine hrefused stop v hstop fun α body => ?_
        rw [coordinated, Run.bind_of_ok hpath, if_neg hbytes, callNative, hruns α body]
        exact Prod.ext (hfinish α (some body)) rfl

/-- Whatever the coordinator does, coordinated accesses are accesses under a policy: granted without
a look at the body, which then runs once, with its completion as the result, or refused without the
body. What the system does behind a body comes on top; where it does nothing, they are exactly that.
-/
theorem coordinated_eq_around (F : Foundation σ) : ∃ (policy : AccessPolicy σ (Stop π))
    (after : AccessKind → Path → σ → σ → σ),
    (∀ kind path s stop t, policy.grant kind path s = (.error stop, t) → stop.Refuses kind path) ∧
    (∀ kind path s (α : Type) (body : Run σ π α), coordinated F path kind body s =
      decidedAccess (policy.grant kind path s).1 (policy.grant kind path s).2 (after kind path s)
        body) ∧
    (F.Still → ∀ kind path (ε α : Type) (body : Run σ ε α),
      (coordinated F path kind body.attempt : Run σ (Stop π) (Except ε α)) =
        policy.around kind path body) := by
  choose granted u after hstill hrefuses hruns using @coordinated_decided σ π F
  refine ⟨⟨fun kind path s => (granted kind path s, u kind path s)⟩, after, ?_, hruns, ?_⟩
  · intro kind path s stop t h
    exact hrefuses kind path s stop (congrArg Prod.fst h)
  · intro h kind path ε α body
    funext s
    rw [hruns, AccessPolicy.around, Run.bind_apply]
    dsimp only
    cases granted kind path s with
    | error stop => rfl
    | ok => exact Prod.ext rfl (hstill kind path s h _)

end

/-- A coordinator that calls back twice, and reports an error behind that. -/
def twiceFoundation : Foundation Nat where
  currentDir := pure ⟨true, []⟩
  bytes path := encode path.components.flatten
  representation path := .ok (some path)
  coordinate _ path s :=
    .call s (some path) fun t => .call t (some path) fun u => .finish u (.ok (some ⟨1, none, none⟩))
  release := pure ()

example : coordinated twiceFoundation ⟨true, [['a']]⟩ .write
    ((fun s => (.ok s, s + 1)) : Run Nat Empty Nat) 4 = (.ok 4, 5) := rfl

end Zwirn.Sync
