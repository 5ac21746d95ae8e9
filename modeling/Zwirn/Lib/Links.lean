import Zwirn.Lib.Outcome

/-!
# Lookups through links

A `Layout` says what stands at the locations of a filesystem with directories, files and relative
links. `Layout.walk` follows a path through it, component by component, and never above a floor.
`Layout.Leads` is the relation of what it finds (`walk_eq_ok`). It is kept by layouts that have the
same links and more directories (`Leads.mono`), so what was found is found again when directories
and files are added.
-/

namespace Lib

/-- A component of a path. -/
inductive Step (α : Type)
  | here
  | up
  | down (name : α)
deriving DecidableEq

/-- What stands at a location. The target of a link is followed from the directory of the link. -/
inductive Occupant (α : Type)
  | directory
  | file
  | link (target : List (Step α))
deriving DecidableEq

/-- Why a lookup fails. -/
inductive LookupError
  | missing
  | notDirectory
  | occupied
  | escape
  | tooManyLinks
deriving DecidableEq

/-- What stands at the locations of a filesystem, or nothing. The root is the location without
names. -/
def Layout (α : Type) := List α → Option (Occupant α)

namespace Layout

section
variable {α : Type}

/-! ## What paths lead to -/

/-- The steps lead from a location to another one, through a number of links at most. Each step
needs a directory to start from; a step up does not leave the floor; a step down to a link goes on
along the target of the link, from the directory of the link. What the last step leads to may be
missing. -/
inductive Leads (l : Layout α) (floor : Option (List α)) :
    Nat → List α → List (Step α) → List α → Prop
  | nil (limit : Nat) (location : List α) : Leads l floor limit location [] location
  | here {limit : Nat} {location found : List α} {steps : List (Step α)}
      (hdir : l location = some .directory) (h : Leads l floor limit location steps found) :
      Leads l floor limit location (.here :: steps) found
  | up {limit : Nat} {location found : List α} {steps : List (Step α)}
      (hdir : l location = some .directory) (hfloor : floor ≠ some location)
      (h : Leads l floor limit location.dropLast steps found) :
      Leads l floor limit location (.up :: steps) found
  | down {limit : Nat} {location found : List α} {name : α} {steps : List (Step α)}
      (hdir : l location = some .directory)
      (hlink : ∀ target, l (location ++ [name]) ≠ some (.link target))
      (h : Leads l floor limit (location ++ [name]) steps found) :
      Leads l floor limit location (.down name :: steps) found
  | link {limit : Nat} {location found : List α} {name : α} {target steps : List (Step α)}
      (hdir : l location = some .directory) (hlink : l (location ++ [name]) = some (.link target))
      (h : Leads l floor limit location (target ++ steps) found) :
      Leads l floor (limit + 1) location (.down name :: steps) found

variable {l l' : Layout α} {floor : Option (List α)} {limit : Nat} {location found : List α}
  {steps : List (Step α)}

/-- What leads somewhere does so in a layout with the same links and all the directories. -/
theorem Leads.mono (h : l.Leads floor limit location steps found)
    (hdir : ∀ x, l x = some .directory → l' x = some .directory)
    (hlink : ∀ x target, l' x = some (.link target) ↔ l x = some (.link target)) :
    l'.Leads floor limit location steps found := by
  induction h with
  | nil limit location => exact .nil limit location
  | here hd _ ih => exact .here (hdir _ hd) ih
  | up hd hfloor _ ih => exact .up (hdir _ hd) hfloor ih
  | down hd hother _ ih => exact .down (hdir _ hd) (fun target => mt (hlink _ _).1 (hother target)) ih
  | link hd hl _ ih => exact .link (hdir _ hd) ((hlink _ _).2 hl) ih

/-- A name behind the steps leads to what stands there, if this is no link. The induction is on the
way that the steps have led. -/
theorem Leads.append_down (h : l.Leads floor limit location steps found) {name : α}
    (hdir : l found = some .directory)
    (hlink : ∀ target, l (found ++ [name]) ≠ some (.link target)) :
    l.Leads floor limit location (steps ++ [.down name]) (found ++ [name]) := by
  induction h with
  | nil limit location => exact .down hdir hlink (.nil _ _)
  | here hd _ ih => exact .here hd (ih hdir hlink)
  | up hd hfloor _ ih => exact .up hd hfloor (ih hdir hlink)
  | down hd hother _ ih => exact .down hd hother (ih hdir hlink)
  | link hd hl _ ih =>
    have hrest := ih hdir hlink
    rw [List.append_assoc] at hrest
    exact .link hd hl hrest

/-! ## Larger layouts -/

/-- The one layout has what the other one has, and no more links. -/
def Grows (l l' : Layout α) : Prop :=
  ∀ x, l' x = l x ∨ l x = none ∧ ∀ target, l' x ≠ some (.link target)

/-- A layout has what it has. -/
theorem Grows.refl (l : Layout α) : l.Grows l := fun _ => .inl rfl

/-- A layout that grows twice grows. -/
theorem Grows.trans {l'' : Layout α} (h : l.Grows l') (h' : l'.Grows l'') : l.Grows l'' := by
  intro x
  rcases h x with heq | ⟨hnone, hlink⟩
  · rw [← heq]
    exact h' x
  · rcases h' x with heq' | ⟨-, hlink'⟩
    · exact .inr ⟨hnone, heq' ▸ hlink⟩
    · exact .inr ⟨hnone, hlink'⟩

/-- What stands somewhere stands there in a layout that has grown. -/
theorem Grows.eq_some (h : l.Grows l') {x : List α} {occupant : Occupant α}
    (hx : l x = some occupant) : l' x = some occupant := by
  rcases h x with heq | ⟨hnone, -⟩
  · rw [heq, hx]
  · rw [hnone] at hx
    cases hx

/-- What was found is found again, since a layout that grows gets no links. -/
theorem Leads.grows (h : l.Leads floor limit location steps found) (hgrows : l.Grows l') :
    l'.Leads floor limit location steps found := by
  refine h.mono (fun x => hgrows.eq_some) fun x target => ⟨fun hl => ?_, hgrows.eq_some⟩
  rcases hgrows x with heq | ⟨-, hlink⟩
  · rw [← heq, hl]
  · exact absurd hl (hlink target)

/-- The one layout has what the other one has, and more files. -/
def GainsFiles (l l' : Layout α) : Prop := ∀ x, l' x = l x ∨ l x = none ∧ l' x = some .file

/-- A layout has what it has, and no more files. -/
theorem GainsFiles.refl (l : Layout α) : l.GainsFiles l := fun _ => .inl rfl

/-- A layout that gains files grows, for files are no links. -/
theorem GainsFiles.grows (h : l.GainsFiles l') : l.Grows l' :=
  fun x => (h x).imp_right fun hx => ⟨hx.1, fun target => by simp [hx.2]⟩

/-- Where nothing stands after files were gained, nothing stood before. -/
theorem GainsFiles.eq_none (h : l.GainsFiles l') {x : List α} (hx : l' x = none) : l x = none := by
  rcases h x with heq | ⟨hnone, -⟩
  · rw [← heq, hx]
  · exact hnone

/-- The directories after files were gained are those that were there before. -/
theorem GainsFiles.eq_directory (h : l.GainsFiles l') {x : List α}
    (hx : l' x = some .directory) : l x = some .directory := by
  rcases h x with heq | ⟨-, hfile⟩
  · rw [← heq, hx]
  · rw [hx] at hfile
    cases hfile

/-- Files do not change where paths lead. -/
theorem GainsFiles.leads_iff (h : l.GainsFiles l') :
    l'.Leads floor limit location steps found ↔ l.Leads floor limit location steps found := by
  refine ⟨fun hleads => hleads.mono (fun x => h.eq_directory) fun x target => ?_,
    fun hleads => hleads.grows h.grows⟩
  rcases h x with heq | ⟨hnone, hfile⟩
  · rw [heq]
  · rw [hnone, hfile]
    simp

/-! ## Lookups -/

/-- Fails unless there is a directory: something else is no directory, and nothing is missing. -/
def requireDirectory (l : Layout α) (location : List α) : Except LookupError Unit :=
  match l location with
  | some .directory => .ok ()
  | some _ => .error .notDirectory
  | none => .error .missing

/-- What is required to be a directory is one. -/
theorem requireDirectory_eq_ok {u : Unit} :
    l.requireDirectory location = .ok u ↔ l location = some .directory := by
  unfold requireDirectory
  split <;> simp_all

variable [DecidableEq α]

/-- Follows steps through directories, and hands a link over to `follow`. What the last step leads
to may be missing. -/
def walkBy (l : Layout α) (floor : Option (List α))
    (follow : List α → List (Step α) → Except LookupError (List α)) :
    List α → List (Step α) → Except LookupError (List α)
  | location, [] => pure location
  | location, step :: steps => do
    l.requireDirectory location
    match step with
    | .here => l.walkBy floor follow location steps
    | .up => do
      require (floor ≠ some location) .escape
      l.walkBy floor follow location.dropLast steps
    | .down name =>
      match l (location ++ [name]) with
      | some (.link target) => follow location (target ++ steps)
      | _ => l.walkBy floor follow (location ++ [name]) steps

/-- Follows steps through directories and a number of links at most. -/
def walk (l : Layout α) (floor : Option (List α)) :
    Nat → List α → List (Step α) → Except LookupError (List α)
  | 0 => l.walkBy floor fun _ _ => .error .tooManyLinks
  | limit + 1 => l.walkBy floor (l.walk floor limit)

/-- The location that the last step names. A link that stands there is not followed. Only a step
downwards names one, and what is in front of it has to lead to a directory. -/
def place (l : Layout α) (floor : Option (List α)) (limit : Nat) (location : List α)
    (steps : List (Step α)) : Except LookupError (List α) :=
  match steps.getLast? with
  | some (.down name) => do
    let parent ← l.walk floor limit location steps.dropLast
    l.requireDirectory parent
    pure (parent ++ [name])
  | _ => .error .occupied

/-- The location that the last step names, if nothing stands there. -/
def vacancy (l : Layout α) (floor : Option (List α)) (limit : Nat) (location : List α)
    (steps : List (Step α)) : Except LookupError (List α) := do
  let vacant ← l.place floor limit location steps
  require (l vacant = none) .occupied
  pure vacant

/-- Where a directory has to be made for the steps to lead to one, if they do not. Where neither is
possible, the failure is the one of making it, whatever a lookup fails with. -/
def gap (l : Layout α) (floor : Option (List α)) (limit : Nat) (location : List α)
    (steps : List (Step α)) : Except LookupError (Option (List α)) :=
  match l.vacancy floor limit location steps with
  | .ok vacant => pure (some vacant)
  | .error error => do
    let found ← mapError (fun _ => error) (l.walk floor limit location steps)
    require (l found = some .directory) error
    pure none

/-! ## Additions -/

/-- Puts something at a location. -/
def put (l : Layout α) (location : List α) (occupant : Occupant α) : Layout α :=
  Function.update l location (some occupant)

/-- Makes the directory that is missing for the steps to lead to one. -/
def withDirectory (l : Layout α) (floor : Option (List α)) (limit : Nat) (location : List α)
    (steps : List (Step α)) : Layout α :=
  match l.gap floor limit location steps with
  | .ok (some vacant) => l.put vacant .directory
  | _ => l

/-- Makes the directories along the steps, where `before` leads to the first one. -/
def withDirectories (l : Layout α) (floor : Option (List α)) (limit : Nat) (location : List α)
    (before : List (Step α)) : List (Step α) → Layout α
  | [] => l
  | step :: steps =>
    (l.withDirectory floor limit location (before ++ [step])).withDirectories floor limit location
      (before ++ [step]) steps

/-! ## What lookups find -/

/-- Steps lead where a walk along them ends, if following a link does. The induction is on the
steps, and a link leaves the rest of the way to `follow`. -/
theorem walkBy_leads {follow : List α → List (Step α) → Except LookupError (List α)}
    (hfollow : ∀ {location found : List α} {name : α} {target steps : List (Step α)},
      l location = some .directory → l (location ++ [name]) = some (.link target) →
      follow location (target ++ steps) = .ok found →
      l.Leads floor limit location (.down name :: steps) found)
    (h : l.walkBy floor follow location steps = .ok found) :
    l.Leads floor limit location steps found := by
  induction steps generalizing location with
  | nil =>
    cases h
    exact .nil _ _
  | cons step steps ih =>
    obtain ⟨_, hdir, h⟩ := Except.bind_eq_ok.1 h
    have hdir := requireDirectory_eq_ok.1 hdir
    cases step with
    | here => exact .here hdir (ih h)
    | up =>
      obtain ⟨_, hfloor, h⟩ := Except.bind_eq_ok.1 h
      exact .up hdir (require_eq_ok.1 hfloor) (ih h)
    | down name =>
      dsimp only at h
      split at h
      · next target hlink => exact hfollow hdir hlink h
      · next hother => exact .down hdir hother (ih h)

/-- A walk ends where its steps lead. The limit of the relation is that of the walk. The induction
is on the derivation. Each rule is one step of the walk, and the rule of a link takes one from the
limit. -/
theorem Leads.walk (h : l.Leads floor limit location steps found) :
    l.walk floor limit location steps = .ok found := by
  induction h with
  | nil limit location => cases limit <;> rfl
  | @here limit _ _ _ hdir _ ih =>
    cases limit <;>
      exact Except.bind_eq_ok.2 ⟨(), requireDirectory_eq_ok.2 hdir, ih⟩
  | @up limit _ _ _ hdir hfloor _ ih =>
    cases limit <;>
      exact Except.bind_eq_ok.2 ⟨(), requireDirectory_eq_ok.2 hdir,
        Except.bind_eq_ok.2 ⟨(), require_of hfloor _, ih⟩⟩
  | @down limit location _ name _ hdir hlink _ ih =>
    cases limit <;>
    · refine Except.bind_eq_ok.2 ⟨(), requireDirectory_eq_ok.2 hdir, ?_⟩
      dsimp only
      split
      · next target hfound => exact absurd hfound (hlink target)
      · exact ih
  | @link limit location _ name target _ hdir hlink _ ih =>
    refine Except.bind_eq_ok.2 ⟨(), requireDirectory_eq_ok.2 hdir, ?_⟩
    dsimp only
    rw [hlink]
    exact ih

/-- A walk ends exactly where its steps lead. The induction is on the limit, as the walk uses it
up. -/
theorem walk_eq_ok : l.walk floor limit location steps = .ok found ↔
    l.Leads floor limit location steps found := by
  refine ⟨fun h => ?_, Leads.walk⟩
  induction limit generalizing location steps found with
  | zero =>
    refine walkBy_leads (fun _ _ h => ?_) h
    cases h
  | succ limit ih => exact walkBy_leads (fun hdir hlink h => .link hdir hlink (ih h)) h

/-- Steps lead to one location. -/
theorem Leads.unique {found' : List α} (h : l.Leads floor limit location steps found)
    (h' : l.Leads floor limit location steps found') : found' = found :=
  Except.ok.inj (h'.walk.symm.trans h.walk)

/-- The steps name a place exactly if they end with a name and those before it lead to a directory:
the place is the one of this name there. -/
theorem place_eq_ok {x : List α} : l.place floor limit location steps = .ok x ↔
    ∃ before name parent, steps = before ++ [.down name] ∧
      l.Leads floor limit location before parent ∧ l parent = some .directory ∧
      x = parent ++ [name] := by
  unfold place
  constructor
  case mp =>
    intro h
    split at h
    · next name hlast =>
      obtain ⟨parent, hwalk, h⟩ := Except.bind_eq_ok.1 h
      obtain ⟨_, hdir, h⟩ := Except.bind_eq_ok.1 h
      cases h
      exact ⟨steps.dropLast, name, parent, (List.dropLast_append_getLast? _ hlast).symm,
        walk_eq_ok.1 hwalk, requireDirectory_eq_ok.1 hdir, rfl⟩
    · cases h
  case mpr =>
    intro h
    obtain ⟨before, name, parent, rfl, hleads, hdir, rfl⟩ := h
    rw [List.getLast?_concat, List.dropLast_concat]
    exact Except.bind_eq_ok.2 ⟨parent, hleads.walk, Except.bind_eq_ok.2
      ⟨(), requireDirectory_eq_ok.2 hdir, rfl⟩⟩

/-- The steps name a vacant place exactly if they name a place, and nothing stands there. -/
theorem vacancy_eq_ok {x : List α} : l.vacancy floor limit location steps = .ok x ↔
    l.place floor limit location steps = .ok x ∧ l x = none := by
  simp only [vacancy, Except.bind_eq_ok, require_eq_ok, Except.pure_eq_ok, exists_const]
  refine ⟨fun h => ?_, fun h => ⟨x, h.1, h.2, rfl⟩⟩
  obtain ⟨y, hplace, hnone, rfl⟩ := h
  exact ⟨hplace, hnone⟩

/-- The steps lead to a place at which no link stands. -/
theorem leads_of_place {x : List α} (h : l.place floor limit location steps = .ok x)
    (hlink : ∀ target, l x ≠ some (.link target)) : l.Leads floor limit location steps x := by
  obtain ⟨before, name, parent, rfl, hleads, hdir, rfl⟩ := place_eq_ok.1 h
  exact hleads.append_down hdir hlink

/-- The steps lead to the vacant place that they name. -/
theorem leads_of_vacancy {x : List α} (h : l.vacancy floor limit location steps = .ok x) :
    l.Leads floor limit location steps x := by
  obtain ⟨hplace, hnone⟩ := vacancy_eq_ok.1 h
  exact leads_of_place hplace fun target => by simp [hnone]

/-- A directory has to be made exactly where the steps name a vacant place. A vacancy is asked for
before anything else. -/
theorem gap_eq_some {x : List α} : l.gap floor limit location steps = .ok (some x) ↔
    l.vacancy floor limit location steps = .ok x := by
  unfold gap
  split
  · next vacant h => simp [h]
  · next error h =>
    refine ⟨fun hgap => ?_, fun hvacant => ?_⟩
    · obtain ⟨_, -, hgap⟩ := Except.bind_eq_ok.1 hgap
      obtain ⟨_, -, hgap⟩ := Except.bind_eq_ok.1 hgap
      cases hgap
    · rw [h] at hvacant
      cases hvacant

/-- No directory has to be made exactly if the steps lead to one. What the steps lead to is not
vacant. -/
theorem gap_eq_none : l.gap floor limit location steps = .ok none ↔
    ∃ found, l.Leads floor limit location steps found ∧ l found = some .directory := by
  unfold gap
  split
  · next vacant h =>
    obtain ⟨-, hnone⟩ := vacancy_eq_ok.1 h
    refine ⟨(fun h => by cases h), fun hfound => ?_⟩
    obtain ⟨found, hleads, hdir⟩ := hfound
    rw [(leads_of_vacancy h).unique hleads, hnone] at hdir
    cases hdir
  · next error h =>
    simp only [Except.bind_eq_ok, mapError_eq_ok, walk_eq_ok, require_eq_ok, Except.pure_eq_ok,
      exists_const, and_true]

/-! ## Additions in larger layouts -/

/-- What was put at a location stands there. -/
theorem put_self (l : Layout α) (x : List α) (occupant : Occupant α) :
    l.put x occupant x = some occupant := Function.update_self _ _ _

/-- What stands elsewhere stays. -/
theorem put_of_ne {x y : List α} (h : y ≠ x) (occupant : Occupant α) : l.put x occupant y = l y :=
  Function.update_of_ne h _ _

/-- A layout grows when something that is no link is put where nothing stands. -/
theorem grows_put {x : List α} (h : l x = none) {occupant : Occupant α}
    (hlink : ∀ target, occupant ≠ .link target) : l.Grows (l.put x occupant) := by
  intro y
  rcases eq_or_ne y x with rfl | hy
  · refine .inr ⟨h, fun target heq => ?_⟩
    rw [put_self] at heq
    exact hlink target (Option.some.inj heq)
  · exact .inl (put_of_ne hy occupant)

/-- A file is added. -/
theorem GainsFiles.put_file (h : l.GainsFiles l') {x : List α} (hx : l' x = none) :
    l.GainsFiles (l'.put x .file) := by
  intro y
  rcases eq_or_ne y x with rfl | hy
  · exact .inr ⟨h.eq_none hx, put_self _ _ _⟩
  · rw [put_of_ne hy]
    exact h y

/-- The same directory is added. -/
theorem GainsFiles.put_directory (h : l.GainsFiles l') {x : List α} :
    (l.put x .directory).GainsFiles (l'.put x .directory) := by
  intro y
  rcases eq_or_ne y x with rfl | hy
  · exact .inl (by rw [put_self, put_self])
  · rw [put_of_ne hy, put_of_ne hy]
    exact h y

/-- What has to be made in a layout with more files has to be made without them. The steps go
through directories only, and files are none. -/
theorem GainsFiles.gap (h : l.GainsFiles l') {r : Option (List α)}
    (hgap : l'.gap floor limit location steps = .ok r) :
    l.gap floor limit location steps = .ok r := by
  cases r with
  | none =>
    obtain ⟨found, hleads, hdir⟩ := gap_eq_none.1 hgap
    exact gap_eq_none.2 ⟨found, h.leads_iff.1 hleads, h.eq_directory hdir⟩
  | some x =>
    obtain ⟨hplace, hnone⟩ := vacancy_eq_ok.1 (gap_eq_some.1 hgap)
    obtain ⟨before, name, parent, rfl, hleads, hdir, rfl⟩ := place_eq_ok.1 hplace
    refine gap_eq_some.2 (vacancy_eq_ok.2 ⟨place_eq_ok.2 ?_, h.eq_none hnone⟩)
    exact ⟨before, name, parent, rfl, h.leads_iff.1 hleads, h.eq_directory hdir, rfl⟩

/-- The layout with a directory grows. -/
theorem withDirectory_grows : l.Grows (l.withDirectory floor limit location steps) := by
  unfold withDirectory
  split
  · next vacant h =>
    exact grows_put (vacancy_eq_ok.1 (gap_eq_some.1 h)).2 fun target heq => by cases heq
  · exact .refl l

/-- The layout with the directories along the steps grows. -/
theorem withDirectories_grows {before : List (Step α)} :
    l.Grows (l.withDirectories floor limit location before steps) := by
  induction steps generalizing l before with
  | nil => exact .refl l
  | cons step steps ih => exact withDirectory_grows.trans ih

end

end Layout

end Lib
