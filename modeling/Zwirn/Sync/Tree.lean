import Zwirn.Sync.Files

/-!
# Plain trees

A `Tree` is a filesystem of directories and files without links: everything stands in a directory
and is a file of its own. `treeFilesystem` gives it the operations of a filesystem. An operation
fails only when a component is missing or is not a directory, when an exclusive creation finds
something, or when a directory is used as a file.
-/

namespace Zwirn.Sync

open Lib Fragment

/-- The names that lead from the root of a filesystem to what stands there. -/
abbrev Location := List Str

/-- The location that a name leads to. -/
def Location.step (location : Location) (name : Str) : Location :=
  if name = ['.'] then location
  else if name = ['.', '.'] then location.dropLast
  else location ++ [name]

/-- What stands at the locations of a filesystem, with the contents of its files. Everything stands
in a directory, and no two locations have the same identity. -/
structure Tree where
  metadata : Location → Option Metadata
  content : Location → Bytes
  /-- The number of the next new file or directory. -/
  next : Nat
  root : ∃ identity, metadata [] = some ⟨.directory, identity⟩
  parent : ∀ location, location ≠ [] → metadata location ≠ none →
    ∃ identity, metadata location.dropLast = some ⟨.directory, identity⟩
  distinct : ∀ a b m m', metadata a = some m → metadata b = some m' →
    m.identity = m'.identity → a = b
  fresh : ∀ location m, metadata location = some m → m.identity.inode < next

/-- The failure at a name that nothing has. -/
def noEntry : IoError := ⟨.notFound, "no such file or directory"⟩

/-- The failure at a name behind something that is no directory. -/
def notDirectory : IoError := ⟨.notADirectory, "not a directory"⟩

namespace Tree

/-- There is a directory at the location. -/
def IsDirectory (t : Tree) (location : Location) : Prop :=
  (t.metadata location).map Metadata.fileType = some .directory

instance (t : Tree) (location : Location) : Decidable (t.IsDirectory location) :=
  inferInstanceAs (Decidable (_ = _))

/-- A directory is what has the metadata of one, whatever its identity. -/
theorem isDirectory_iff {t : Tree} {location : Location} :
    t.IsDirectory location ↔ ∃ identity, t.metadata location = some ⟨.directory, identity⟩ := by
  unfold IsDirectory
  rw [Option.map_eq_some_iff]
  refine ⟨fun h => ?_, fun h => ?_⟩
  · obtain ⟨⟨_, identity⟩, hm, rfl⟩ := h
    exact ⟨identity, hm⟩
  · obtain ⟨identity, hm⟩ := h
    exact ⟨_, hm, rfl⟩

/-! ## Changes -/

/-- Adds a file or a directory to a directory. -/
def add (t : Tree) (location : Location) (fileType : FileType)
    (hparent : t.IsDirectory location.dropLast) (hnew : t.metadata location = none) : Tree where
  metadata := Function.update t.metadata location (some ⟨fileType, ⟨0, t.next⟩⟩)
  content := Function.update t.content location []
  next := t.next + 1
  root := by
    have hne : [] ≠ location := by
      intro heq
      obtain ⟨identity, hroot⟩ := t.root
      rw [← heq, hroot] at hnew
      cases hnew
    rw [Function.update_of_ne hne]
    exact t.root
  parent := by
    intro a ha hm
    by_cases hal : a = location
    · subst hal
      obtain ⟨identity, hdir⟩ := isDirectory_iff.1 hparent
      refine ⟨identity, ?_⟩
      rw [Function.update_of_ne fun heq => ?_, hdir]
      rw [heq, hnew] at hdir
      cases hdir
    · rw [Function.update_of_ne hal] at hm
      obtain ⟨identity, hdir⟩ := t.parent a ha hm
      refine ⟨identity, ?_⟩
      rw [Function.update_of_ne fun heq => ?_, hdir]
      rw [heq, hnew] at hdir
      cases hdir
  distinct := by
    have hother : ∀ a m, a ≠ location → t.metadata a = some m → m.identity ≠ ⟨0, t.next⟩ := by
      intro a m _ hm heq
      have hfresh := t.fresh a m hm
      rw [heq] at hfresh
      exact Nat.lt_irrefl _ hfresh
    intro a b m m' hm hm' heq
    by_cases ha : a = location <;> by_cases hb : b = location
    · rw [ha, hb]
    · rw [ha, Function.update_self] at hm
      rw [Function.update_of_ne hb] at hm'
      cases hm
      exact absurd heq.symm (hother b m' hb hm')
    · rw [Function.update_of_ne ha] at hm
      rw [hb, Function.update_self] at hm'
      cases hm'
      exact absurd heq (hother a m ha hm)
    · rw [Function.update_of_ne ha] at hm
      rw [Function.update_of_ne hb] at hm'
      exact t.distinct a b m m' hm hm' heq
  fresh := by
    intro a m hm
    by_cases ha : a = location
    · rw [ha, Function.update_self] at hm
      cases hm
      exact Nat.lt_succ_self _
    · rw [Function.update_of_ne ha] at hm
      exact Nat.lt_succ_of_lt (t.fresh a m hm)

/-- Changes the content of a file. -/
def setContent (t : Tree) (location : Location) (bytes : Bytes) : Tree :=
  { t with content := Function.update t.content location bytes }

/-- Adds a file or a directory, unless what should contain it is missing or no directory. -/
def create (location : Location) (fileType : FileType) : Run Tree IoError Unit := fun t =>
  if hnew : t.metadata location = none then
    if hparent : t.IsDirectory location.dropLast then
      (.ok (), t.add location fileType hparent hnew)
    else (.error (if t.metadata location.dropLast = none then noEntry else notDirectory), t)
  else (.error ⟨.alreadyExists, "file exists"⟩, t)

/-! ## Lookups -/

/-- Goes on only at a directory. The error tells whether there is something else or nothing. -/
def requireDirectory (t : Tree) (location : Location) : Except IoError Unit :=
  match t.metadata location with
  | some m => require (m.fileType = .directory) notDirectory
  | none => .error noEntry

/-- Follows names through directories. What the last name leads to may be missing. -/
def walk (t : Tree) : Location → List Str → Except IoError Location
  | location, [] => pure location
  | location, name :: names => do
    t.requireDirectory location
    t.walk (location.step name) names

/-- Walks to the end of the names, and gives what is there. -/
def lookup (t : Tree) (location : Location) (names : List Str) :
    Except IoError (Location × Metadata) := do
  let location ← t.walk location names
  let metadata ← okOr (t.metadata location) noEntry
  pure (location, metadata)

/-- A run that only reads the tree. -/
def reading {α : Type} (f : Tree → Except IoError α) : Run Tree IoError α := fun t => (f t, t)

/-- A reading operation returns what it computes from the tree, and leaves the tree as it is. -/
theorem reading_eq_ok {α : Type} {f : Tree → Except IoError α} {t t' : Tree} {a : α} :
    reading f t = (.ok a, t') ↔ f t = .ok a ∧ t' = t := by
  rw [reading, Prod.mk.injEq, eq_comm (a := t)]

/-- Opens a file for writing. Exclusive creation fails where something stands. Truncation empties
the file that is found. -/
def openWith (location : Location) (names : List Str) (options : OpenOptions) :
    Run Tree IoError Location := do
  let location ← reading fun t => t.walk location names
  match ← reading fun t => pure (t.metadata location) with
  | some metadata =>
    if options.createNew then .fail ⟨.alreadyExists, "file exists"⟩
    else if metadata.fileType = .directory then .fail ⟨.other, "is a directory"⟩
    else do
      if options.truncate then fun t => (.ok (), t.setContent location []) else pure ()
      pure location
  | none =>
    if options.create ∨ options.createNew then do
      create location .file
      pure location
    else .fail noEntry

/-- Writes bytes over the beginning of a file. -/
def overwrite (t : Tree) (location : Location) (bytes : Bytes) : Tree :=
  t.setContent location (bytes ++ (t.content location).drop bytes.length)

/-- Replaces the content of the file at a location. -/
def writeAll (location : Location) (bytes : Bytes) : Run Tree IoError Unit := fun t =>
  (.ok (), t.overwrite location bytes)

/-- Makes sure that a directory is there. -/
def ensureDirectory (location : Location) : Run Tree IoError Unit := do
  match ← reading fun t => pure (t.metadata location) with
  | some metadata => if metadata.fileType = .directory then pure () else .fail notDirectory
  | none => create location .directory

/-- Creates the directories along the names, from the first on, where they are missing. -/
def createDirs : Location → List Str → Run Tree IoError Unit
  | _, [] => pure ()
  | location, name :: names => do
    ensureDirectory (location.step name)
    createDirs (location.step name) names

end Tree

/-- The location from which a path is followed. -/
def Path.start (cwd : Location) (path : Path) : Location := if path.absolute then [] else cwd

/-- A plain tree as a filesystem, for a process in the directory `cwd`. Handles are locations. An
operation fails only as the tree makes it fail, so a name may have any characters; the empty path
names no directory. -/
def treeFilesystem (cwd : Location) : FileSystem Tree Location Location where
  openAmbientDir path := Tree.reading fun t => do
    require (path ≠ ⟨false, []⟩) noEntry
    let (location, metadata) ← t.lookup (path.start cwd) path.components
    require (metadata.fileType = .directory) notDirectory
    pure location
  dirMetadata dir path := Tree.reading fun t => (·.2) <$> t.lookup dir path.components
  dirOpen dir path := Tree.reading fun t => (·.1) <$> t.lookup dir path.components
  dirOpenWith dir path options := Tree.openWith dir path.components options
  dirCreateDirAll dir path := Tree.createDirs dir path.components
  fileOpen path := Tree.reading fun t => (·.1) <$> t.lookup (path.start cwd) path.components
  fileMetadata file := Tree.reading fun t => okOr (t.metadata file) noEntry
  readToEnd file := Tree.reading fun t => do
    let metadata ← okOr (t.metadata file) noEntry
    require (metadata.fileType = .file) ⟨.other, "not a regular file"⟩
    pure (t.content file)
  writeAll file bytes := Tree.writeAll file bytes
  write path bytes := do
    let file ← Tree.openWith (path.start cwd) path.components ⟨true, true, false, true⟩
    Tree.writeAll file bytes

/-! ## What operations do -/

/-- None of the names is a special name of a directory. -/
def PlainNames (names : List Str) : Prop := ∀ name ∈ names, name ≠ ['.'] ∧ name ≠ ['.', '.']

/-- The names at the start of plain names are plain. -/
theorem PlainNames.ofStart {names names' : List Str} (h : PlainNames names)
    (hp : names' <+: names) : PlainNames names' := fun name hname => h name (hp.subset hname)

/-- A name that is none of the special ones leads one level down. -/
theorem Location.step_plain {location : Location} {name : Str}
    (h : name ≠ ['.'] ∧ name ≠ ['.', '.']) : location.step name = location ++ [name] := by
  rw [Location.step, if_neg h.1, if_neg h.2]

namespace Tree
variable {t t' t'' : Tree} {location : Location} {names : List Str}

/-- Everything stands in a directory, and that in a directory, up to the root. The induction is on
the location from its end. -/
theorem isDirectory_of_below (h : t.metadata (location ++ names) ≠ none) (hne : names ≠ []) :
    t.IsDirectory location := by
  induction names using List.reverseRecOn with
  | nil => exact absurd rfl hne
  | append_singleton names name ih =>
    have hparent : t.IsDirectory (location ++ names) := by
      have hdir := t.parent (location ++ (names ++ [name])) (by simp) h
      rw [← List.append_assoc, List.dropLast_concat] at hdir
      exact isDirectory_iff.2 hdir
    by_cases hnil : names = []
    · rwa [hnil, List.append_nil] at hparent
    · refine ih (fun hnone => ?_) hnil
      rw [IsDirectory, hnone] at hparent
      cases hparent

/-- At a directory the walk goes on. -/
theorem requireDirectory_of (h : t.IsDirectory location) : t.requireDirectory location = .ok () := by
  obtain ⟨identity, hm⟩ := isDirectory_iff.1 h
  rw [requireDirectory, hm]
  exact require_of rfl _

/-- Names lead to what stands there. Nothing above it is a file, so no step of the walk fails. -/
theorem walk_of_some (hplain : PlainNames names) (h : t.metadata (location ++ names) ≠ none) :
    t.walk location names = .ok (location ++ names) := by
  induction names generalizing location with
  | nil =>
    rw [List.append_nil]
    rfl
  | cons name names ih =>
    have hstep := @Location.step_plain location name (hplain name List.mem_cons_self)
    have hcons : location ++ name :: names = location ++ [name] ++ names := by simp
    rw [walk, requireDirectory_of (isDirectory_of_below h (List.cons_ne_nil _ _)), hstep]
    rw [hcons] at h ⊢
    exact ih (fun n hn => hplain n (List.mem_cons_of_mem _ hn)) h

/-- Names lead nowhere else. -/
theorem walk_eq_ok (hplain : PlainNames names) {location' : Location}
    (h : t.walk location names = .ok location') : location' = location ++ names := by
  induction names generalizing location with
  | nil =>
    cases h
    exact (List.append_nil _).symm
  | cons name names ih =>
    obtain ⟨_, -, h⟩ := Except.bind_eq_ok.1 h
    rw [Location.step_plain (hplain name List.mem_cons_self)] at h
    rw [ih (fun n hn => hplain n (List.mem_cons_of_mem _ hn)) h]
    simp

/-- A lookup that succeeds has walked there, and something is there. -/
theorem walk_of_lookup {location' : Location} {metadata : Metadata}
    (h : t.lookup location names = .ok (location', metadata)) :
    t.walk location names = .ok location' ∧ t.metadata location' = some metadata := by
  simp only [lookup, Except.bind_eq_ok, okOr_eq_ok, Except.pure_eq_ok, Prod.mk.injEq] at h
  obtain ⟨l, hwalk, m, hm, rfl, rfl⟩ := h
  exact ⟨hwalk, hm⟩

/-- Plain names are looked up at the location that has them at its end, and nowhere else. -/
theorem lookup_eq_ok (hplain : PlainNames names) {location' : Location} {metadata : Metadata} :
    t.lookup location names = .ok (location', metadata) ↔
      location' = location ++ names ∧ t.metadata (location ++ names) = some metadata := by
  refine ⟨fun h => ?_, fun h => ?_⟩
  · obtain ⟨hwalk, hm⟩ := walk_of_lookup h
    obtain rfl := walk_eq_ok hplain hwalk
    exact ⟨rfl, hm⟩
  · obtain ⟨rfl, hm⟩ := h
    simp only [lookup, Except.bind_eq_ok, okOr_eq_ok, Except.pure_eq_ok]
    exact ⟨_, walk_of_some hplain (by rw [hm]; simp), metadata, hm, rfl⟩

/-! ## Growth -/

/-- What stands in the one tree stands in the other one. -/
def Extends (t t' : Tree) : Prop :=
  ∀ location metadata, t.metadata location = some metadata → t'.metadata location = some metadata

/-- A tree extends itself. -/
theorem Extends.refl (t : Tree) : t.Extends t := fun _ _ h => h

/-- Growing twice is growing. -/
theorem Extends.trans (h : t.Extends t') (h' : t'.Extends t'') : t.Extends t'' :=
  fun location metadata hm => h' location metadata (h location metadata hm)

/-- A directory stays one while the tree grows. -/
theorem Extends.isDirectory (h : t.Extends t') (hdir : t.IsDirectory location) :
    t'.IsDirectory location := by
  obtain ⟨identity, hm⟩ := isDirectory_iff.1 hdir
  exact isDirectory_iff.2 ⟨identity, h _ _ hm⟩

/-- What was reached is reached again. Directories stay directories when a tree grows. -/
theorem Extends.walk (h : t.Extends t') {location' : Location}
    (hwalk : t.walk location names = .ok location') : t'.walk location names = .ok location' := by
  induction names generalizing location with
  | nil => exact hwalk
  | cons name names ih =>
    obtain ⟨_, hdir, hwalk⟩ := Except.bind_eq_ok.1 hwalk
    have hdir' : t.IsDirectory location := by
      unfold requireDirectory at hdir
      unfold IsDirectory
      split at hdir
      · next m hm => rw [hm, Option.map_some, require_eq_ok.1 hdir]
      · cases hdir
    rw [Tree.walk, requireDirectory_of (h.isDirectory hdir')]
    exact ih hwalk

/-- Adding something where nothing was extends the tree. -/
theorem add_extends {fileType : FileType} (hparent : t.IsDirectory location.dropLast)
    (hnew : t.metadata location = none) : t.Extends (t.add location fileType hparent hnew) := by
  intro l m hm
  have hne : l ≠ location := by
    intro heq
    rw [heq, hnew] at hm
    cases hm
  exact (Function.update_of_ne hne _ _).trans hm

/-- What is in a tree after an addition was there before, or it is what was added, and then it has
the next identity. -/
theorem metadata_add {fileType : FileType} (hparent : t.IsDirectory location.dropLast)
    (hnew : t.metadata location = none) {l : Location} {m : Metadata}
    (h : (t.add location fileType hparent hnew).metadata l = some m) :
    t.metadata l = some m ∨ l = location ∧ m = ⟨fileType, ⟨0, t.next⟩⟩ := by
  by_cases hl : l = location
  · subst hl
    exact .inr ⟨rfl, Option.some.inj (h.symm.trans (Function.update_self _ _ _))⟩
  · exact .inl ((Function.update_of_ne hl _ _).symm.trans h)

/-- Creating something succeeds in a directory at a free name, and adds it with the next
identity. -/
theorem create_of {fileType : FileType} (hparent : t.IsDirectory location.dropLast)
    (hnew : t.metadata location = none) :
    create location fileType t = (.ok (), t.add location fileType hparent hnew) := by
  rw [create, dif_pos hnew, dif_pos hparent]

/-- Reading the metadata of a location leaves the tree as it is. -/
theorem reading_metadata (t : Tree) (location : Location) :
    reading (fun t => pure (t.metadata location)) t = (.ok (t.metadata location), t) := rfl

/-- What is new in a tree. -/
def New (t t' : Tree) (P : Location → Metadata → Prop) : Prop :=
  ∀ location metadata, t'.metadata location = some metadata →
    t.metadata location = some metadata ∨ P location metadata

/-- A directory is made, or is there. What is new in the tree is this directory. A new one gets the
next identity. -/
theorem ensureDirectory_ok (hparent : t.IsDirectory location.dropLast)
    (h : t.metadata location = none ∨ t.IsDirectory location) :
    ∃ t', ensureDirectory location t = (.ok (), t') ∧ t.Extends t' ∧ t'.IsDirectory location ∧
      New t t' fun l m => l = location ∧ m.fileType = .directory := by
  unfold ensureDirectory
  rw [Run.bind_of_ok (reading_metadata t location)]
  rcases h with h | h
  · refine ⟨t.add location .directory hparent h, ?_, add_extends hparent h, ?_, fun l m hm => ?_⟩
    · rw [h]
      exact create_of hparent h
    · rw [isDirectory_iff]
      exact ⟨_, Function.update_self _ _ _⟩
    · rcases metadata_add hparent h hm with hm | ⟨rfl, rfl⟩
      · exact .inl hm
      · exact .inr ⟨rfl, rfl⟩
  · obtain ⟨identity, hm⟩ := isDirectory_iff.1 h
    refine ⟨t, ?_, .refl t, h, fun l m hm => .inl hm⟩
    rw [hm]
    rfl

/-- Directories are made along names that lead to nothing but directories. The induction is on
the names. Each directory is made in the one before it, and what is new are directories along the
names. -/
theorem createDirs_ok (hplain : PlainNames names) (hdir : t.IsDirectory location)
    (h : ∀ names', names' <+: names →
      t.metadata (location ++ names') = none ∨ t.IsDirectory (location ++ names')) :
    ∃ t', createDirs location names t = (.ok (), t') ∧ t.Extends t' ∧
      t'.IsDirectory (location ++ names) ∧ New t t' fun l m => m.fileType = .directory ∧
        ∃ names', names' <+: names ∧ l = location ++ names' := by
  induction names generalizing location t with
  | nil =>
    refine ⟨t, rfl, .refl t, ?_, fun l m hm => .inl hm⟩
    rwa [List.append_nil]
  | cons name names ih =>
    have hstep := @Location.step_plain location name (hplain name List.mem_cons_self)
    have hcons : ∀ names', location ++ name :: names' = location ++ [name] ++ names' := by simp
    obtain ⟨t₁, hrun₁, hextends₁, hdir₁, hnew₁⟩ := @ensureDirectory_ok t (location ++ [name])
      (by rwa [List.dropLast_concat]) (h [name] (by simp))
    have hbelow : ∀ names', names' <+: names →
        t₁.metadata (location ++ [name] ++ names') = none ∨
          t₁.IsDirectory (location ++ [name] ++ names') := by
      intro names' hnames'
      rcases h (name :: names') (List.prefix_cons_inj name |>.2 hnames') with hnone | hdir'
      · rw [hcons] at hnone
        rw [Option.eq_none_iff_forall_ne_some, or_iff_not_imp_left]
        intro hsome
        push Not at hsome
        obtain ⟨m, hm⟩ := hsome
        rcases hnew₁ _ _ hm with hm' | ⟨-, htype⟩
        · rw [hnone] at hm'
          cases hm'
        · rw [IsDirectory, hm, Option.map_some, htype]
      · rw [hcons] at hdir'
        exact .inr (hextends₁.isDirectory hdir')
    obtain ⟨t₂, hrun₂, hextends₂, hdir₂, hnew₂⟩ := ih
      (fun n hn => hplain n (List.mem_cons_of_mem _ hn)) hdir₁ hbelow
    refine ⟨t₂, ?_, hextends₁.trans hextends₂, ?_, fun l m hm => ?_⟩
    · rw [createDirs, hstep, Run.bind_of_ok hrun₁, hrun₂]
    · rwa [hcons]
    · rcases hnew₂ l m hm with hm | ⟨htype, names', hnames', rfl⟩
      · rcases hnew₁ l m hm with hm | ⟨rfl, htype⟩
        · exact .inl hm
        · exact .inr ⟨htype, [name], by simp, rfl⟩
      · exact .inr ⟨htype, name :: names', List.prefix_cons_inj name |>.2 hnames',
          (hcons names').symm⟩

/-- A walk along two lists of names goes along the first one and then, from there, along the
second. -/
theorem walk_append {names' : List Str} : t.walk location (names ++ names') =
    t.walk location names >>= fun location' => t.walk location' names' := by
  induction names generalizing location with
  | nil => rfl
  | cons name names ih =>
    rw [List.cons_append, walk, walk]
    cases t.requireDirectory location with
    | error e => rfl
    | ok u => exact ih

/-- Names lead into a directory even if nothing stands there. A walk does not ask whether its last
name is taken. -/
theorem walk_of_isDirectory (hplain : PlainNames names) (hne : names ≠ [])
    (hdir : t.IsDirectory (location ++ names).dropLast) :
    t.walk location names = .ok (location ++ names) := by
  rw [List.dropLast_append_of_ne_nil hne] at hdir
  have hfront : t.walk location names.dropLast = .ok (location ++ names.dropLast) := by
    refine walk_of_some (hplain.ofStart (List.dropLast_prefix _)) fun hnone => ?_
    rw [IsDirectory, hnone] at hdir
    cases hdir
  have hsplit := List.dropLast_append_getLast hne
  rw [← hsplit, walk_append, hfront, Except.bind_eq_ok]
  refine ⟨_, rfl, ?_⟩
  rw [walk, requireDirectory_of hdir,
    Location.step_plain (hplain _ (List.getLast_mem hne)), List.append_assoc]
  rfl

/-- An exclusive creation in a directory where nothing stands makes a file. -/
theorem createNew_ok (hplain : PlainNames names) (hne : names ≠ [])
    (hdir : t.IsDirectory (location ++ names).dropLast)
    (hnew : t.metadata (location ++ names) = none) :
    openWith location names ⟨true, false, true, false⟩ t =
      (.ok (location ++ names), t.add (location ++ names) .file hdir hnew) := by
  have hwalk : reading (fun t => t.walk location names) t = (.ok (location ++ names), t) := by
    rw [reading, walk_of_isDirectory hplain hne hdir]
  rw [openWith, Run.bind_of_ok hwalk, Run.bind_of_ok (reading_metadata _ _), hnew]
  exact Run.bind_of_ok (create_of hdir hnew)

/-- A file that is there is opened and truncated. -/
theorem truncate_ok {location' : Location} (hwalk : t.walk location names = .ok location')
    {identity : FileIdentity} (hfile : t.metadata location' = some ⟨.file, identity⟩) :
    openWith location names ⟨true, true, false, true⟩ t =
      (.ok location', t.setContent location' []) := by
  have hwalk : reading (fun t => t.walk location names) t = (.ok location', t) := by
    rw [reading, hwalk]
  rw [openWith, Run.bind_of_ok hwalk, Run.bind_of_ok (reading_metadata _ _), hfile]
  rfl

/-- A lookup finds what stands there, or fails because nothing does. What the tree has at the
location tells them apart. -/
theorem lookup_cases (t : Tree) (location : Location) (hplain : PlainNames names) :
    (∃ m, t.lookup location names = .ok (location ++ names, m) ∧
      t.metadata (location ++ names) = some m) ∨
    ∃ e, t.lookup location names = .error e ∧ t.metadata (location ++ names) = none := by
  cases hm : t.metadata (location ++ names) with
  | some m => exact .inl ⟨m, (lookup_eq_ok hplain).2 ⟨rfl, hm⟩, rfl⟩
  | none =>
    refine .inr ?_
    cases hlookup : t.lookup location names with
    | error e => exact ⟨e, rfl, rfl⟩
    | ok found =>
      obtain ⟨l, m⟩ := found
      have hfound := ((lookup_eq_ok hplain).1 hlookup).2
      rw [hm] at hfound
      cases hfound

end Tree

end Zwirn.Sync
