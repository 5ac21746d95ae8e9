import Zwirn.Lib.Links
import Zwirn.Lib.View
import Zwirn.Sync.Inventory
import Zwirn.Sync.Tree

/-!
# Trees with links

A `LinkTree` is a filesystem of directories, files and relative symbolic links, and `linkFilesystem`
gives it the operations of a filesystem. Lookups beneath a directory handle never go above that
directory. Nothing is removed or moved, so a tree only grows (`LinkTree.Extends`), and what is new
in it is no other file than itself.
-/

namespace Zwirn.Sync

open Lib Fragment

/-- What a component of a path does. -/
def stepOf (name : Str) : Step Str :=
  if name = ['.'] then .here else if name = ['.', '.'] then .up else .down name

/-- The components of a path as the steps of a walk. -/
def Path.steps (path : Path) : List (Step Str) := path.components.map stepOf

/-- What stands at the locations of a filesystem, with the contents of its files. Locations with the
same inode are one file. -/
structure LinkTree where
  layout : Layout Str
  inode : Location → Nat
  content : Nat → Bytes
  /-- The inode of the next new file or directory. -/
  next : Nat
  fresh : ∀ location, layout location ≠ none → inode location < next

/-- How the system names the failures of a walk. -/
def lookupError : LookupError → IoError
  | .missing => noEntry
  | .notDirectory => notDirectory
  | .occupied => ⟨.alreadyExists, "file exists"⟩
  | .escape => ⟨.other, "a path led outside of the filesystem"⟩
  | .tooManyLinks => ⟨.other, "too many levels of symbolic links"⟩

/-- A link is reported as neither a file nor a directory, where it is not followed. -/
def fileType : Occupant Str → FileType
  | .directory => .directory
  | .file => .file
  | .link _ => .other

namespace LinkTree

/-- The metadata of what is at a location. Its identity is the inode there, on the only device. -/
def metadata (t : LinkTree) (location : Location) : Option Metadata :=
  (t.layout location).map fun occupant => ⟨fileType occupant, ⟨0, t.inode location⟩⟩

/-! ## Changes -/

/-- Adds a file or a directory. -/
def add (t : LinkTree) (location : Location) (occupant : Occupant Str) : LinkTree where
  layout := t.layout.put location occupant
  inode := Function.update t.inode location t.next
  content := Function.update t.content t.next []
  next := t.next + 1
  fresh := by
    intro x hx
    rcases eq_or_ne x location with rfl | hxl
    · rw [Function.update_self]
      exact Nat.lt_succ_self _
    · rw [Layout.put_of_ne hxl] at hx
      rw [Function.update_of_ne hxl]
      exact Nat.lt_succ_of_lt (t.fresh x hx)

/-- Changes the content of a file. -/
def setContent (t : LinkTree) (location : Location) (bytes : Bytes) : LinkTree :=
  { t with content := Function.update t.content (t.inode location) bytes }

/-- Writes bytes over the beginning of a file. -/
def overwrite (t : LinkTree) (location : Location) (bytes : Bytes) : LinkTree :=
  t.setContent location (bytes ++ (t.content (t.inode location)).drop bytes.length)

/-- A run that only reads the tree. -/
def reading {α : Type} (f : LinkTree → Except IoError α) : Run LinkTree IoError α := fun t => (f t, t)

/-- A run that changes the tree. -/
def changing (f : LinkTree → LinkTree) : Run LinkTree IoError Unit := fun t => (.ok (), f t)

/-- A reading operation returns what it computes from the tree, and leaves the tree as it is. -/
theorem reading_eq_ok {α : Type} {f : LinkTree → Except IoError α} {t t' : LinkTree} {a : α} :
    reading f t = (.ok a, t') ↔ f t = .ok a ∧ t' = t := by
  rw [reading, Prod.mk.injEq, eq_comm (a := t)]

section
variable (limit : Nat) (floor : Option Location) (location : Location)

/-! ## Lookups -/

/-- Walks along a path and through the links on it. -/
def walk (t : LinkTree) (path : Path) : Except IoError Location :=
  mapError lookupError (t.layout.walk floor limit location path.steps)

/-- Walks along a path to something that is there. -/
def lookup (t : LinkTree) (path : Path) : Except IoError (Location × Metadata) := do
  let found ← t.walk limit floor location path
  let metadata ← okOr (t.metadata found) noEntry
  pure (found, metadata)

/-- Opens a file for writing. An exclusive creation does not follow a link that stands there. A new
file stands in a directory, also where a link led to its place. -/
def openWith (path : Path) (options : OpenOptions) : Run LinkTree IoError Location :=
  if options.createNew then do
    let vacant ← reading fun t =>
      mapError lookupError (t.layout.vacancy floor limit location path.steps)
    changing fun t => t.add vacant .file
    pure vacant
  else do
    let found ← reading fun t => t.walk limit floor location path
    match ← reading fun t => pure (t.metadata found) with
    | some metadata =>
      if metadata.fileType = .directory then .fail ⟨.other, "is a directory"⟩
      else do
        if options.truncate then changing fun t => t.setContent found [] else pure ()
        pure found
    | none =>
      if options.create then do
        reading fun t => mapError lookupError (t.layout.requireDirectory found.dropLast)
        changing fun t => t.add found .file
        pure found
      else .fail noEntry

/-- Makes a directory, or finds that there is one. At a link that leads nowhere it fails as for
anything that stands there. -/
def ensureDirectory (steps : List (Step Str)) : Run LinkTree IoError Unit := do
  match ← reading fun t => mapError lookupError (t.layout.gap floor limit location steps) with
  | some vacant => changing fun t => t.add vacant .directory
  | none => pure ()

/-- Makes the directories along the steps, where `before` leads to the first one. -/
def createDirs (before : List (Step Str)) : List (Step Str) → Run LinkTree IoError Unit
  | [] => pure ()
  | step :: steps => do
    ensureDirectory limit floor location (before ++ [step])
    createDirs (before ++ [step]) steps

end

end LinkTree

/-- A tree with links as a filesystem, for a process in the directory `cwd`. A lookup follows
`limit` links at most. Handles are locations. An operation fails only as the tree makes it fail, so
a name may have any characters; the empty path names no directory. -/
def linkFilesystem (limit : Nat) (cwd : Location) : FileSystem LinkTree Location Location where
  openAmbientDir path := LinkTree.reading fun t => do
    require (path ≠ ⟨false, []⟩) noEntry
    let (location, metadata) ← t.lookup limit none (path.start cwd) path
    require (metadata.fileType = .directory) notDirectory
    pure location
  dirMetadata dir path := LinkTree.reading fun t => (·.2) <$> t.lookup limit (some dir) dir path
  dirOpen dir path := LinkTree.reading fun t => (·.1) <$> t.lookup limit (some dir) dir path
  dirOpenWith dir path options := LinkTree.openWith limit (some dir) dir path options
  dirCreateDirAll dir path := LinkTree.createDirs limit (some dir) dir [] path.steps
  fileOpen path := LinkTree.reading fun t => (·.1) <$> t.lookup limit none (path.start cwd) path
  fileMetadata file := LinkTree.reading fun t => okOr (t.metadata file) noEntry
  readToEnd file := LinkTree.reading fun t => do
    let metadata ← okOr (t.metadata file) noEntry
    require (metadata.fileType = .file) ⟨.other, "not a regular file"⟩
    pure (t.content (t.inode file))
  writeAll file bytes := LinkTree.changing fun t => t.overwrite file bytes
  write path bytes := do
    let file ← LinkTree.openWith limit none (path.start cwd) path ⟨true, true, false, true⟩
    LinkTree.changing fun t => t.overwrite file bytes

/-! ## Growth -/

namespace LinkTree
variable {t t' t'' : LinkTree} {x : Location} {limit : Nat} {floor : Option Location}
  {location : Location}

/-- What stands in the one tree stands in the other one, which has no more links. What is new is no
other file. -/
structure Extends (t t' : LinkTree) : Prop where
  grows : t.layout.Grows t'.layout
  inode : ∀ x, t.layout x ≠ none → t'.inode x = t.inode x
  new : ∀ x y, t.layout x = none → t'.layout x ≠ none → t'.layout y ≠ none →
    t'.inode y = t'.inode x → y = x

/-- A tree extends itself. -/
theorem Extends.refl (t : LinkTree) : t.Extends t :=
  ⟨.refl _, fun _ _ => rfl, fun _ _ hnone hsome => absurd hnone hsome⟩

/-- Growing twice is growing. Each step keeps what was there before it. -/
theorem Extends.trans (h : t.Extends t') (h' : t'.Extends t'') : t.Extends t'' := by
  have hkept : ∀ y, t.layout y ≠ none → t'.layout y ≠ none := by
    intro y hy
    obtain ⟨occupant, hsome⟩ := Option.ne_none_iff_exists'.1 hy
    rw [h.grows.eq_some hsome]
    exact Option.some_ne_none occupant
  refine ⟨h.grows.trans h'.grows, fun y hy => ?_, fun y z hy hy' hz' heq => ?_⟩
  · rw [h'.inode y (hkept y hy), h.inode y hy]
  · by_cases hnew : t'.layout y = none
    · exact h'.new y z hnew hy' hz' heq
    · by_cases hnew' : t'.layout z = none
      · exact (h'.new z y hnew' hz' hy' heq.symm).symm
      · rw [h'.inode z hnew', h'.inode y hnew] at heq
        exact h.new y z hy hnew hnew' heq

/-- Adding a directory or a file where nothing was extends the tree. The layout grows by one
occupant, whose inode is new. -/
theorem add_extends (hnone : t.layout x = none) {occupant : Occupant Str}
    (hlink : ∀ target, occupant ≠ .link target) : t.Extends (t.add x occupant) := by
  have hother : ∀ y, y ≠ x → (t.add x occupant).layout y = t.layout y :=
    fun y hy => Layout.put_of_ne hy occupant
  refine ⟨Layout.grows_put hnone hlink, fun y hy => ?_, fun y z hy hy' hz' heq => ?_⟩
  · have hne : y ≠ x := by
      rintro rfl
      exact hy hnone
    exact Function.update_of_ne hne _ _
  · obtain rfl : y = x := by
      by_contra hne
      rw [hother y hne] at hy'
      exact hy' hy
    by_contra hne
    rw [hother z hne] at hz'
    have hinode : t.inode z = t.next := by
      rw [← Function.update_of_ne hne t.next t.inode]
      exact heq.trans (Function.update_self _ _ _)
    exact absurd (t.fresh z hz') (by omega)

/-- Writing a file changes its bytes only. -/
theorem setContent_extends (bytes : Bytes) : t.Extends (t.setContent x bytes) :=
  ⟨.refl _, fun _ _ => rfl, fun _ _ hnone hsome => absurd hnone hsome⟩

/-- A file that is overwritten keeps its place and its identity. -/
theorem overwrite_extends (bytes : Bytes) : t.Extends (t.overwrite x bytes) := setContent_extends _

/-- A directory is made where one is made in a layout without some files. The layout without them
says where. -/
theorem ensureDirectory_spec {l : Layout Str} {steps : List (Step Str)} {u : Unit}
    (h : ensureDirectory limit floor location steps t = (.ok u, t')) (hl : l.GainsFiles t.layout) :
    (l.withDirectory floor limit location steps).GainsFiles t'.layout ∧ t.Extends t' := by
  obtain ⟨r, t₁, hread, hmake⟩ := Run.bind_eq_ok.1 h
  obtain ⟨hgap, rfl⟩ := reading_eq_ok.1 hread
  have hgap := mapError_eq_ok.1 hgap
  rw [Layout.withDirectory, hl.gap hgap]
  cases r with
  | none =>
    cases hmake
    exact ⟨hl, .refl _⟩
  | some vacant =>
    cases hmake
    have hnone := (Layout.vacancy_eq_ok.1 (Layout.gap_eq_some.1 hgap)).2
    exact ⟨hl.put_directory, add_extends hnone fun target heq => by cases heq⟩

/-- Directories that are created are those the layout has when all directories along the path are
made in it. Files may have come into being next to them, in either of the layouts. -/
theorem createDirs_spec {l : Layout Str} {before steps : List (Step Str)} {u : Unit}
    (h : createDirs limit floor location before steps t = (.ok u, t'))
    (hl : l.GainsFiles t.layout) :
    (l.withDirectories floor limit location before steps).GainsFiles t'.layout ∧ t.Extends t' := by
  induction steps generalizing l before t with
  | nil =>
    cases h
    exact ⟨hl, .refl _⟩
  | cons step steps ih =>
    obtain ⟨_, t₁, hone, hrest⟩ := Run.bind_eq_ok.1 h
    obtain ⟨hl₁, hextends₁⟩ := ensureDirectory_spec hone hl
    obtain ⟨hl₂, hextends₂⟩ := ih hrest hl₁
    exact ⟨hl₂, hextends₁.trans hextends₂⟩

/-- A lookup finds exactly what the path leads to. -/
theorem lookup_eq_ok {path : Path} {found : Location × Metadata} :
    t.lookup limit floor location path = .ok found ↔
      t.layout.Leads floor limit location path.steps found.1 ∧
        t.metadata found.1 = some found.2 := by
  obtain ⟨x, m⟩ := found
  simp only [lookup, walk, Except.bind_eq_ok, mapError_eq_ok, okOr_eq_ok, Except.pure_eq_ok,
    Layout.walk_eq_ok, Prod.mk.injEq]
  refine ⟨fun h => ?_, fun h => ⟨x, h.1, m, h.2, rfl, rfl⟩⟩
  obtain ⟨y, hleads, m', hm, rfl, rfl⟩ := h
  exact ⟨hleads, hm⟩

/-- An exclusive creation puts a file where nothing stood. -/
theorem createNew_eq_ok {path : Path}
    (h : openWith limit floor location path ⟨true, false, true, false⟩ t = (.ok x, t')) :
    t.layout.vacancy floor limit location path.steps = .ok x ∧ t' = t.add x .file := by
  obtain ⟨vacant, t₁, hread, hadd⟩ := Run.bind_eq_ok.1 h
  obtain ⟨hvacant, rfl⟩ := reading_eq_ok.1 hread
  cases hadd
  exact ⟨mapError_eq_ok.1 hvacant, rfl⟩

/-- Opening what can be looked up adds nothing. It empties the file that is there, and a directory
is refused. -/
theorem truncate_eq_ok {path : Path} {found : Location × Metadata}
    (hfound : t.lookup limit floor location path = .ok found)
    (h : openWith limit floor location path ⟨true, true, false, true⟩ t = (.ok x, t')) :
    t'.layout = t.layout ∧ t.Extends t' := by
  obtain ⟨hleads, hm⟩ := lookup_eq_ok.1 hfound
  obtain ⟨y, t₁, hwalk, h⟩ := Run.bind_eq_ok.1 h
  obtain ⟨hwalk, rfl⟩ := reading_eq_ok.1 hwalk
  obtain rfl := hleads.unique (Layout.walk_eq_ok.1 (mapError_eq_ok.1 hwalk))
  obtain ⟨m, t₂, hread, h⟩ := Run.bind_eq_ok.1 h
  obtain ⟨hread, rfl⟩ := reading_eq_ok.1 hread
  obtain rfl : m = some found.2 := (Except.pure_eq_ok.1 hread).symm.trans hm
  dsimp only at h
  split at h
  · cases h
  · cases h
    exact ⟨rfl, setContent_extends []⟩

end LinkTree

/-! ## What discovery reads -/

section
variable {σ δ φ ε : Type}

/-- Reading, and the grant of an access, leave the state as it is. Discovery uses nothing else, so
it leaves the state as it is. -/
structure ReadsOnly (fs : FileSystem σ δ φ) (access : AccessPolicy σ ε) : Prop where
  grant : ∀ kind path s, (access.grant kind path s).2 = s
  openAmbientDir : ∀ path s, (fs.openAmbientDir path s).2 = s
  dirMetadata : ∀ dir path s, (fs.dirMetadata dir path s).2 = s
  dirOpen : ∀ dir path s, (fs.dirOpen dir path s).2 = s
  fileOpen : ∀ path s, (fs.fileOpen path s).2 = s
  fileMetadata : ∀ file s, (fs.fileMetadata file s).2 = s
  readToEnd : ∀ file s, (fs.readToEnd file s).2 = s

variable {fs : FileSystem σ δ φ} {access : AccessPolicy σ ε} {root : SourceRoot δ} {s : σ}

/-- A run that leaves the state as it is and returns in `Q`. -/
def Sees {ε' α : Type} (s : σ) (Q : α → Prop) (x : Run σ ε' α) : Prop :=
  x.Observes id s Q fun _ => True

/-- A run that leaves the state alone sees the value it returns. -/
theorem Sees.of {ε' α : Type} {x : Run σ ε' α} (h : (x s).2 = s) :
    Sees s (fun a => x s = (.ok a, s)) x := by
  rintro u rfl
  refine ⟨h, ?_⟩
  cases hr : (x u).1 with
  | ok a => exact Prod.ext hr h
  | error e => trivial

/-- Where such a run returns, the state is what it was, and the value is as promised. -/
theorem Sees.eq_ok {ε' α : Type} {Q : α → Prop} {x : Run σ ε' α} (h : Sees s Q x) {t : σ} {a : α}
    (hrun : x s = (.ok a, t)) : t = s ∧ Q a := Run.Observes.eq_ok h rfl hrun

/-- Naming the failure in another way changes nothing in what is seen. -/
theorem Sees.mapError {ε' ε'' α : Type} {Q : α → Prop} {x : Run σ ε' α} (h : Sees s Q x)
    (f : ε' → ε'') : Sees s Q (x.mapError f) := Run.Observes.mapError h fun _ _ => trivial

/-- An ordinary step does not touch the state. -/
theorem sees_operation {ε' ε'' α : Type} (x : Except ε' α) :
    Sees s (fun _ => True) (operation x : Run σ (PolicyFailure ε'' ε') α) := by
  refine Run.Observes.ofExcept ?_
  cases mapError PolicyFailure.operation x with
  | ok a => trivial
  | error e => trivial

variable (h : ReadsOnly fs access)
include h

/-- A granted access sees what its body sees, since granting leaves the state alone. A refusal
leaves the state alone too. -/
theorem ReadsOnly.flatten {ε' α : Type} {Q : α → Prop} {body : Run σ ε' α} (hbody : Sees s Q body)
    (kind : AccessKind) (path : Path) : Sees s Q (flatten (access.around kind path body)) := by
  rintro u rfl
  rw [flatten_around]
  have hgrant := h.grant kind path u
  split
  · next v heq =>
    rw [heq] at hgrant
    obtain rfl := hgrant
    exact hbody.mapError PolicyFailure.operation v rfl
  · next e v heq =>
    rw [heq] at hgrant
    exact ⟨hgrant, trivial⟩

/-- Checking the directories above a target leaves the state alone. The induction is on the
directories, with one probe each. -/
theorem ReadsOnly.validateParents (path : FragmentPath) :
    Sees s (fun _ => True) (validateParents fs root path) := by
  have hoptional : ∀ path, Sees s (fun _ => True) (validateOptionalDirectory fs root path) := by
    intro path
    refine .bind (Sees.of (h.dirMetadata root.directory path s)).attempt fun r _ => ?_
    cases r with
    | ok metadata =>
      dsimp only
      split
      · exact .pure trivial
      · exact .fail trivial
    | error error =>
      dsimp only
      split
      · exact .pure trivial
      · exact .fail trivial
  have hfrom : ∀ parent segments,
      Sees s (fun _ => True) (validateParentsFrom fs root path parent segments) := by
    intro parent segments
    induction segments generalizing parent with
    | nil => exact .pure trivial
    | cons segment segments ih => exact .bind ((hoptional _).mapError _) fun _ _ => ih _
  unfold Sync.validateParents
  split
  · exact hfrom _ _
  · exact .pure trivial

/-- A target that is read can be looked up. The probe in front of the opening has found it. -/
theorem ReadsOnly.readOptionalTarget (path : FragmentPath) (target : Path) :
    Sees s (fun input => input ≠ none → ∃ m,
      fs.dirMetadata root.directory (relativePath path) s = (.ok m, s))
        (readOptionalTarget fs root path target) := by
  refine .bind (Sees.of (h.dirMetadata root.directory (relativePath path) s)).attempt fun r hr => ?_
  cases r with
  | error error =>
    dsimp only
    split
    · exact .pure fun hne => absurd rfl hne
    · exact .fail trivial
  | ok metadata =>
    have hfound : ∃ m, fs.dirMetadata root.directory (relativePath path) s = (.ok m, s) :=
      ⟨metadata, hr⟩
    dsimp only
    split
    · exact .fail trivial
    · refine .bind (Sees.of (h.dirOpen root.directory (relativePath path) s)).attempt fun r _ => ?_
      cases r with
      | error error =>
        dsimp only
        split
        · exact .pure fun _ => hfound
        · exact .fail trivial
      | ok file =>
        refine .bind ((Sees.of (h.fileMetadata file s)).mapError _) fun metadata _ => ?_
        split
        · exact .fail trivial
        · exact .bind ((Sees.of (h.readToEnd file s)).mapError _) fun _ _ => .pure fun _ => hfound

/-- The target of an entry with a file can be looked up. -/
def HasTarget (fs : FileSystem σ δ φ) (root : SourceRoot δ) (s : σ) (entry : InventoryEntry) :
    Prop :=
  entry.filesystem ≠ none →
    ∃ m, fs.dirMetadata root.directory (relativePath entry.path) s = (.ok m, s)

/-- An entry that is discovered holds what its target is in the state, and the state stays. -/
theorem ReadsOnly.discoverEntry {origin : Option DocumentOrigin}
    {identities : OrdMap FileIdentity FragmentPath} (d : DiscoveredFragment) :
    Sees s (fun r => HasTarget fs root s r.1) (discoverEntry fs access root origin identities d) := by
  refine .bind ((h.validateParents d.path).mapError _) fun _ _ => ?_
  refine .bind (sees_operation _) fun _ _ => ?_
  refine .bind (h.flatten (h.readOptionalTarget d.path _) .read _) fun input hinput => ?_
  cases input with
  | none => exact .pure fun hne => absurd rfl hne
  | some input =>
    exact .bind (sees_operation _) fun _ _ => .pure fun _ => hinput (Option.some_ne_none input)

/-- Every entry that is discovered holds what its target is. All of them are read in one state,
since reading does not change it. -/
theorem ReadsOnly.discoverEntries {origin : Option DocumentOrigin}
    {identities : OrdMap FileIdentity FragmentPath} (ds : List DiscoveredFragment) :
    Sees s (fun entries => ∀ entry ∈ entries, HasTarget fs root s entry)
      (discoverEntries fs access root origin identities ds) := by
  induction ds generalizing identities with
  | nil => exact .pure fun _ hmem => by cases hmem
  | cons d ds ih =>
    exact .bind (h.discoverEntry d) fun r hr => .bind ih fun entries hentries =>
      .pure (List.forall_mem_cons.2 ⟨hr, hentries⟩)

/-- Discovery leaves the state as it is, and has found the document and the files of the entries.
Each of its steps reads only, and the state is the same for all of them. -/
theorem ReadsOnly.discoverForDocument (sourceRoot document : Path) :
    Sees s (fun inventory => (∀ entry ∈ inventory.entries, HasTarget fs inventory.sourceRoot s entry) ∧
      ∃ file, fs.fileOpen document s = (.ok file, s))
        (Inventory.discoverForDocument fs sourceRoot document access) := by
  have hroot : Sees s (fun _ => True) (Inventory.openSourceRoot fs sourceRoot) :=
    .mapError (.bind (Sees.of (h.openAmbientDir sourceRoot s)) fun _ _ => .pure trivial) _
  have hread : Sees s (fun _ => ∃ file, fs.fileOpen document s = (.ok file, s))
      (readDocument fs document) := by
    refine .bind ((Sees.of (h.fileOpen document s)).mapError _) fun file hfile => ?_
    refine .bind ((Sees.of (h.fileMetadata file s)).mapError _) fun _ _ => ?_
    exact .bind ((Sees.of (h.readToEnd file s)).mapError _) fun _ _ => .pure ⟨file, hfile⟩
  refine .bind (hroot.mapError _) fun root _ => ?_
  refine .bind (h.flatten hread .read _) fun input hinput => ?_
  refine .bind (sees_operation _) fun _ _ => .bind (sees_operation _) fun ds _ => ?_
  exact .bind (h.discoverEntries ds) fun entries hentries => .pure ⟨hentries, hinput⟩

end

end Zwirn.Sync
