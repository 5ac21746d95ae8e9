import Zwirn.Sync.Along
import Zwirn.Sync.TreeDisk
import Zwirn.Sync.Unaliased

/-!
# Trees with links as disks

The operations on a tree with links only add directories and files, each in a directory
(`LinkTree.Builds`), so they keep every invariant that this keeps (`linkFilesystem_keeps`). Over the
trees in which the path of the source root leads to a directory the filesystem is a workspace
(`linkWorkspace`), whatever links there are. Distinct targets are distinct files there if no link
stands beneath the source root (`linkWorkspace_separate`): links may lead to the source root and to
the document, but not out of it.
-/

namespace Zwirn.Sync

open Lib Fragment

/-! ## What operations add -/

namespace LinkTree
variable {t t' t'' : LinkTree} {x : Location} {limit : Nat} {floor : Option Location}
  {location : Location}

/-- The tree has more directories and files, each of which stands in a directory. -/
structure Builds (t t' : LinkTree) : Prop where
  extends_ : t.Extends t'
  parent : ∀ (x : Location) (name : Str), t.layout (x ++ [name]) = none → t'.layout (x ++ [name]) ≠ none →
    t'.layout x = some .directory

/-- A step that leaves the layout alone builds nothing, however it changes the content of files. -/
theorem Builds.of_layout (hextends : t.Extends t') (h : t'.layout = t.layout) : t.Builds t' :=
  ⟨hextends, fun _ _ hnone hsome => absurd (h ▸ hnone) hsome⟩

/-- Doing nothing builds nothing. -/
theorem Builds.refl (t : LinkTree) : t.Builds t := .of_layout (.refl t) rfl

/-- What is built stays while more is built. An occupant that came with the first step is neither a
link then nor after the second one. -/
theorem Builds.trans (h : t.Builds t') (h' : t'.Builds t'') : t.Builds t'' := by
  refine ⟨h.extends_.trans h'.extends_, fun x name hnone hsome => ?_⟩
  by_cases hthere : t'.layout (x ++ [name]) = none
  · exact h'.parent x name hthere hsome
  · exact h'.extends_.grows.eq_some (h.parent x name hnone hthere)

/-- Something that is no link is added to a directory. -/
theorem add_builds {name : Str} (hdir : t.layout x = some .directory)
    (hnone : t.layout (x ++ [name]) = none) {occupant : Occupant Str}
    (hlink : ∀ target, occupant ≠ .link target) : t.Builds (t.add (x ++ [name]) occupant) := by
  refine ⟨add_extends hnone hlink, fun y name' hold hnew => ?_⟩
  have heq : y ++ [name'] = x ++ [name] := by
    by_contra hne
    exact hnew ((Layout.put_of_ne hne occupant).trans hold)
  obtain ⟨rfl, -⟩ := List.append_inj' heq rfl
  exact (Layout.put_of_ne (by simp) occupant).trans hdir

/-- Adding a directory or a file at a vacancy builds on the tree, since the directory above it is
there. -/
theorem vacancy_builds {steps : List (Step Str)}
    (h : t.layout.vacancy floor limit location steps = .ok x) {occupant : Occupant Str}
    (hlink : ∀ target, occupant ≠ .link target) : t.Builds (t.add x occupant) := by
  obtain ⟨hplace, hnone⟩ := Layout.vacancy_eq_ok.1 h
  obtain ⟨before, name, parent, -, -, hdir, rfl⟩ := Layout.place_eq_ok.1 hplace
  exact add_builds hdir hnone hlink

/-- A run that reads the tree first does then what it does in that tree. -/
theorem reading_moves {α β : Type} {R : LinkTree → LinkTree → Prop} (hrefl : ∀ t, R t t)
    {f : LinkTree → Except IoError α} {g : α → Run LinkTree IoError β}
    (h : ∀ a, f t = .ok a → R t (g a t).2) : R t ((reading f >>= g) t).2 := by
  cases hf : f t with
  | ok a =>
    rw [Run.bind_of_ok (show reading f t = (.ok a, t) by rw [reading, hf])]
    exact h a hf
  | error e =>
    rw [Run.bind_of_error (show reading f t = (.error e, t) by rw [reading, hf])]
    exact hrefl t

/-- Making directories moves the tree along a relation along which it is moved by each directory
that is made: where a start of the steps leads and nothing stands. -/
theorem createDirs_moves {R : LinkTree → LinkTree → Prop} (hrefl : ∀ t, R t t)
    (htrans : ∀ t t' t'', R t t' → R t' t'' → R t t'') {before steps : List (Step Str)}
    (hadd : ∀ below, below <+: steps → below ≠ [] → ∀ t x,
      t.layout.vacancy floor limit location (before ++ below) = .ok x → R t (t.add x .directory)) :
    Run.Moves R (createDirs limit floor location before steps) := by
  induction steps generalizing before with
  | nil => exact .pure hrefl ()
  | cons step steps ih =>
    refine .bind htrans (fun t => ?_) fun _ => ih fun below hbelow _ t x hvacant => ?_
    · refine reading_moves hrefl fun made hmade => ?_
      cases made with
      | none => exact hrefl t
      | some vacant =>
        exact hadd [step] (List.cons_prefix_cons.2 ⟨rfl, List.nil_prefix⟩) (List.cons_ne_nil _ _) t
          vacant (Layout.gap_eq_some.1 (mapError_eq_ok.1 hmade))
    · rw [List.append_assoc] at hvacant
      exact hadd (step :: below) (List.cons_prefix_cons.2 ⟨rfl, hbelow⟩) (List.cons_ne_nil _ _) t x
        hvacant

/-- Creating directories builds, whether it ends well or stops on the way. -/
theorem createDirs_builds (before steps : List (Step Str)) :
    Run.Moves Builds (createDirs limit floor location before steps) :=
  createDirs_moves Builds.refl (fun _ _ _ => Builds.trans) fun _ _ _ t x hvacant =>
    vacancy_builds hvacant fun target heq => by cases heq

/-- Opening a file moves the tree along a relation along which it is moved when a file is emptied,
and when one is added: in a directory, at the place to which the path leads. -/
theorem openWith_moves {R : LinkTree → LinkTree → Prop} (hrefl : ∀ t, R t t) {path : Path}
    {options : OpenOptions} (hempty : ∀ t x, R t (t.setContent x []))
    (hadd : ∀ t x name, t.layout x = some .directory → t.layout (x ++ [name]) = none →
      t.layout.Leads floor limit location path.steps (x ++ [name]) →
        R t (t.add (x ++ [name]) .file)) :
    Run.Moves R (openWith limit floor location path options) := by
  intro t
  unfold openWith
  split
  · refine reading_moves hrefl fun vacant hvacant => ?_
    have hvacant := mapError_eq_ok.1 hvacant
    obtain ⟨hplace, hnone⟩ := Layout.vacancy_eq_ok.1 hvacant
    obtain ⟨before, name, parent, -, -, hdir, rfl⟩ := Layout.place_eq_ok.1 hplace
    exact hadd t parent name hdir hnone (Layout.leads_of_vacancy hvacant)
  · refine reading_moves hrefl fun found hfound => reading_moves hrefl fun m hm => ?_
    obtain rfl := Except.pure_eq_ok.1 hm
    cases hm' : t.metadata found with
    | some metadata =>
      dsimp only
      split
      · exact hrefl t
      · split
        · exact hempty t found
        · exact hrefl t
    | none =>
      have hnone : t.layout found = none := Option.map_eq_none_iff.1 hm'
      have hleads := Layout.walk_eq_ok.1 (mapError_eq_ok.1 hfound)
      dsimp only
      split
      · refine reading_moves hrefl fun _ hdir => ?_
        have hdir := Layout.requireDirectory_eq_ok.1 (mapError_eq_ok.1 hdir)
        -- Nothing stands at `found`, so it is not the root, and its last name stands for a new file.
        rcases List.eq_nil_or_concat found with rfl | ⟨x, name, rfl⟩
        · rw [List.dropLast_nil, hnone] at hdir
          cases hdir
        · rw [List.concat_eq_append] at hdir hnone hleads ⊢
          rw [List.dropLast_concat] at hdir
          exact hadd t x name hdir hnone hleads
      · exact hrefl t

/-- So does opening a file for writing, which may create it. -/
theorem openWith_builds (path : Path) (options : OpenOptions) :
    Run.Moves Builds (openWith limit floor location path options) :=
  openWith_moves Builds.refl (fun _ _ => .of_layout (setContent_extends []) rfl)
    fun _ _ _ hdir hnone _ => add_builds hdir hnone fun target heq => by cases heq

end LinkTree

/-- An invariant that trees keep when directories and files are added is kept by every operation.
Reading leaves the tree, and every other operation only builds on it. -/
theorem linkFilesystem_keeps (limit : Nat) (cwd : Location) {P : LinkTree → Prop}
    (h : ∀ t t', P t → t.Builds t' → P t') : (linkFilesystem limit cwd).Keeps P where
  openAmbientDir _ _ ht := ht
  dirMetadata _ _ _ ht := ht
  dirOpen _ _ _ ht := ht
  dirOpenWith _ path options t ht := h _ _ ht (LinkTree.openWith_builds path options t)
  dirCreateDirAll _ path t ht := h _ _ ht (LinkTree.createDirs_builds [] path.steps t)
  fileOpen _ _ ht := ht
  fileMetadata _ _ ht := ht
  readToEnd _ _ ht := ht
  writeAll _ bytes _ ht := h _ _ ht (.of_layout (LinkTree.overwrite_extends bytes) rfl)
  write path bytes t ht := by
    refine h _ _ ht (Run.Moves.bind (fun _ _ _ => .trans) (LinkTree.openWith_builds path _)
      (fun file t => ?_) t)
    exact .of_layout (LinkTree.overwrite_extends bytes) rfl

/-! ## Files of a tree -/

namespace LinkTree
variable {t t' : LinkTree} {x : Location} {i : FileIdentity} {limit : Nat} {floor : Option Location}
  {location : Location}

/-- What stands at the location is no directory, and has the identity. Several locations can have
one identity, for locations with the same inode are one file. -/
def HasFile (t : LinkTree) (i : FileIdentity) (x : Location) : Prop :=
  ∃ m, t.metadata x = some m ∧ m.identity = i ∧ m.fileType ≠ .directory

/-- What the file with an identity holds, if there is one. -/
noncomputable def fileContent (t : LinkTree) (i : FileIdentity) : Option Bytes :=
  open Classical in if ∃ x, t.HasFile i x then some (t.content i.inode) else none

/-- What has metadata is an occupant of the layout, and the metadata is that of its kind and
inode. -/
theorem metadata_eq_some {m : Metadata} : t.metadata x = some m ↔
    ∃ occupant, t.layout x = some occupant ∧ m = ⟨fileType occupant, ⟨0, t.inode x⟩⟩ := by
  simp only [metadata, Option.map_eq_some_iff, eq_comm (a := m)]

/-- The identity of a file is made of its inode, which is not the next one. -/
theorem HasFile.identity (h : t.HasFile i x) : i = ⟨0, t.inode x⟩ ∧ i.inode < t.next := by
  obtain ⟨m, hm, rfl, -⟩ := h
  obtain ⟨occupant, hx, rfl⟩ := metadata_eq_some.1 hm
  exact ⟨rfl, t.fresh x (by simp [hx])⟩

/-- The content of an identity with a file is what the inode holds. -/
theorem fileContent_of (h : t.HasFile i x) : t.fileContent i = some (t.content i.inode) :=
  if_pos ⟨x, h⟩

/-- The contents are those of the same files. -/
theorem fileContent_congr (h : ∀ x, t'.HasFile i x ↔ t.HasFile i x)
    (hcontent : ∀ x, t.HasFile i x → t'.content i.inode = t.content i.inode) :
    t'.fileContent i = t.fileContent i := by
  by_cases hexists : ∃ x, t.HasFile i x
  · obtain ⟨x, hx⟩ := hexists
    rw [fileContent_of hx, fileContent_of ((h x).2 hx), hcontent x hx]
  · have hnone : ¬ ∃ x, t'.HasFile i x := fun ⟨x, hx⟩ => hexists ⟨x, (h x).1 hx⟩
    rw [fileContent, fileContent, if_neg hexists, if_neg hnone]

/-- What was added has the next inode as its identity. -/
theorem metadata_add_self (occupant : Occupant Str) :
    (t.add x occupant).metadata x = some ⟨fileType occupant, ⟨0, t.next⟩⟩ := by
  refine metadata_eq_some.2 ⟨occupant, Layout.put_self _ _ _, ?_⟩
  rw [show (t.add x occupant).inode x = t.next from Function.update_self _ _ _]

/-- Elsewhere nothing is seen of an addition. -/
theorem metadata_add_of_ne {y : Location} (hne : y ≠ x) (occupant : Occupant Str) :
    (t.add x occupant).metadata y = t.metadata y := by
  rw [metadata, metadata, show (t.add x occupant).layout y = t.layout y from Layout.put_of_ne hne _,
    show (t.add x occupant).inode y = t.inode y from Function.update_of_ne hne _ _]

/-- What is added is no file that was there. The new identity is one that no occupant had. -/
theorem hasFile_add (hnone : t.layout x = none) {occupant : Occupant Str}
    (hi : fileType occupant = .directory ∨ i ≠ ⟨0, t.next⟩) (y : Location) :
    (t.add x occupant).HasFile i y ↔ t.HasFile i y := by
  rcases eq_or_ne y x with rfl | hne
  · refine iff_of_false (fun h => ?_) fun h => ?_
    · obtain ⟨m, hm, rfl, htype⟩ := h
      rw [metadata_add_self] at hm
      cases hm
      exact hi.elim htype fun hne => hne rfl
    · obtain ⟨m, hm, -⟩ := h
      obtain ⟨occupant, hsome, -⟩ := metadata_eq_some.1 hm
      rw [hnone] at hsome
      cases hsome
  · rw [HasFile, HasFile, metadata_add_of_ne hne]

/-- Adding something changes no file that is there. -/
theorem content_add (h : t.HasFile i x) (y : Location) (occupant : Occupant Str) :
    (t.add y occupant).content i.inode = t.content i.inode :=
  Function.update_of_ne (Nat.ne_of_lt h.identity.2) _ _

/-- A new directory changes no file. -/
theorem fileContent_add_directory (hnone : t.layout x = none) :
    (t.add x .directory).fileContent = t.fileContent := by
  funext i
  exact fileContent_congr (hasFile_add hnone (.inl rfl)) fun y hy => content_add hy x _

/-- A new file is empty, and the others hold what they held. -/
theorem fileContent_add_file (hnone : t.layout x = none) :
    (t.add x .file).fileContent = Function.update t.fileContent ⟨0, t.next⟩ (some []) := by
  funext i
  by_cases hi : i = ⟨0, t.next⟩
  · subst hi
    have hself : (t.add x .file).HasFile ⟨0, t.next⟩ x :=
      ⟨_, metadata_add_self _, rfl, by simp [fileType]⟩
    rw [Function.update_self, fileContent_of hself]
    exact congrArg some (Function.update_self _ _ _)
  · rw [Function.update_of_ne hi]
    exact fileContent_congr (hasFile_add hnone (.inr hi)) fun y hy => content_add hy x _

/-- No file has the identity that the next one gets. -/
theorem fileContent_next (t : LinkTree) : t.fileContent ⟨0, t.next⟩ = none :=
  if_neg fun ⟨_, hx⟩ => Nat.lt_irrefl _ hx.identity.2

/-- A file whose content is set holds it, and the others what they held. A file has its identity at
one location only. -/
theorem fileContent_setContent (h : t.HasFile i x) (bytes : Bytes) :
    (t.setContent x bytes).fileContent = Function.update t.fileContent i (some bytes) := by
  obtain ⟨rfl, -⟩ := h.identity
  funext j
  have hsame : ∀ y, (t.setContent x bytes).HasFile j y ↔ t.HasFile j y := fun _ => .rfl
  by_cases hj : j = ⟨0, t.inode x⟩
  · subst hj
    rw [Function.update_self, fileContent_of ((hsame x).2 h)]
    exact congrArg some (Function.update_self _ _ _)
  · rw [Function.update_of_ne hj]
    refine fileContent_congr hsame fun y hy => Function.update_of_ne (fun heq => hj ?_) _ _
    rw [hy.identity.1] at heq ⊢
    exact congrArg (FileIdentity.mk 0) heq

/-- An empty file that is written over holds what was written. -/
theorem fileContent_overwrite (h : t.HasFile i x) (hempty : t.fileContent i = some [])
    (bytes : Bytes) :
    (t.overwrite x bytes).fileContent = Function.update t.fileContent i (some bytes) := by
  have hcontent : t.content (t.inode x) = [] := by
    rw [fileContent_of h, h.identity.1] at hempty
    exact Option.some.inj hempty
  rw [overwrite, hcontent, List.drop_nil, List.append_nil]
  exact fileContent_setContent h bytes

/-! ## Files that are opened -/

/-- Exclusive creation fails and adds nothing, or adds a file where nothing stood. The last name of
the path may not stand there as a link either. -/
theorem createNew_cases {path : Path} {result : Except IoError Location}
    (h : openWith limit floor location path ⟨true, false, true, false⟩ t = (result, t')) :
    ((∃ e, result = .error e) ∧ t' = t) ∨ ∃ x, result = .ok x ∧
      t.layout.vacancy floor limit location path.steps = .ok x ∧ t' = t.add x .file := by
  cases result with
  | ok x =>
    obtain ⟨hvacant, rfl⟩ := createNew_eq_ok h
    exact .inr ⟨x, rfl, hvacant, rfl⟩
  | error e =>
    rw [openWith, if_pos rfl] at h
    rcases Run.bind_eq_error.1 h with hread | ⟨_, _, -, hadd⟩
    · exact .inl ⟨⟨e, rfl⟩, (congrArg Prod.snd hread).symm⟩
    · cases hadd

/-- Opening what can be looked up empties it, unless it is a directory. A link on the way is
followed, as it is by the lookup. -/
theorem truncate_of_lookup {path : Path} {found : Location × Metadata}
    (hfound : t.lookup limit floor location path = .ok found) :
    openWith limit floor location path ⟨true, true, false, true⟩ t =
      if found.2.fileType = .directory then (.error ⟨.other, "is a directory"⟩, t)
      else (.ok found.1, t.setContent found.1 []) := by
  obtain ⟨hleads, hm⟩ := lookup_eq_ok.1 hfound
  have hwalk : reading (fun t => t.walk limit floor location path) t = (.ok found.1, t) := by
    rw [reading, walk, Layout.walk_eq_ok.2 hleads]
    rfl
  have hmetadata : reading (fun t => pure (t.metadata found.1)) t = (.ok (some found.2), t) := by
    rw [reading, hm]
    rfl
  rw [openWith, if_neg Bool.false_ne_true, Run.bind_of_ok hwalk, Run.bind_of_ok hmetadata]
  dsimp only
  split
  · rfl
  · rfl

end LinkTree

/-! ## The workspace -/

section
variable {ε : Type} {limit : Nat} {cwd : Location} {paths : ResolvedPaths} {r : Location}
  {t t' : LinkTree}

/-- What a tree with links shows beneath the directory `r`: what the targets and the document lead
to, and what the files hold. -/
noncomputable def linkView (limit : Nat) (cwd : Location) (paths : ResolvedPaths) (r : Location)
    (t : LinkTree) : Disk Location where
  target path := t.target limit r path
  document := (t.lookup limit none (paths.document.start cwd) paths.document).toOption.map
    fun found => found.2.identity
  handle := t.metadata
  content := t.fileContent

/-- The document is seen exactly if its path leads to something, and with the identity of this. -/
theorem linkView_document {i : FileIdentity} : (linkView limit cwd paths r t).document = some i ↔
    ∃ found, t.lookup limit none (paths.document.start cwd) paths.document = .ok found ∧
      found.2.identity = i := by
  dsimp only [linkView]
  cases t.lookup limit none (paths.document.start cwd) paths.document with
  | ok found => simp [Except.toOption]
  | error e => simp [Except.toOption]

/-- What a tree shows, a larger one shows as well. -/
theorem linkView_extends (h : t.Extends t') :
    (linkView limit cwd paths r t).Extends (linkView limit cwd paths r t') := by
  refine ⟨fun path m hm => h.target hm, fun i hi => ?_, fun x m hm => h.metadata hm⟩
  obtain ⟨found, hfound, hi⟩ := linkView_document.1 hi
  exact linkView_document.2 ⟨found, h.lookup hfound, hi⟩

/-- A target that leads where nothing stands is absent. -/
theorem target_eq_none {path : FragmentPath} {x : Location}
    (hleads : TargetLeads limit r t.layout path x) (hnone : t.layout x = none) :
    t.target limit r path = none := by
  rw [Option.eq_none_iff_forall_ne_some]
  intro m hm
  obtain ⟨y, hy, hym⟩ := LinkTree.target_eq_some.1 hm
  obtain rfl := hleads.unique hy
  rw [LinkTree.metadata, hnone] at hym
  cases hym

/-- Making directories changes no file. -/
theorem createDirs_content (floor : Option Location) (location : Location)
    (before steps : List (Step Str)) (t : LinkTree) :
    (LinkTree.createDirs limit floor location before steps t).2.fileContent = t.fileContent :=
  LinkTree.createDirs_moves (R := fun t t' => t'.fileContent = t.fileContent) (fun _ => rfl)
    (fun _ _ _ h h' => h'.trans h) (fun _ _ _ _ _ hvacant =>
      LinkTree.fileContent_add_directory (Layout.vacancy_eq_ok.1 hvacant).2) t

variable {P : LinkTree → Prop} {hkeeps : (linkFilesystem limit cwd).Keeps P}

/-- A reading whose outcome is known in every tree with the view. -/
theorem reading_sees {α : Type} {d : Disk Location} {Q : α → Prop} {E : IoError → Prop}
    {f : LinkTree → Except IoError α} (hP : ∀ t, P t → P (LinkTree.reading f t).2)
    (h : ∀ t, P t → linkView limit cwd paths r t = d → Run.Ends Q E (f t)) :
    ((LinkTree.reading f).restrict hP).Observes (fun t => linkView limit cwd paths r t.1) d Q E :=
  fun t ht => ⟨ht, h t.1 t.2 ht⟩

/-- A reading whose failures do not matter. -/
theorem reading_sees_ok {α : Type} {d : Disk Location} {Q : α → Prop}
    {f : LinkTree → Except IoError α} (hP : ∀ t, P t → P (LinkTree.reading f t).2)
    (h : ∀ t a, P t → linkView limit cwd paths r t = d → f t = .ok a → Q a) :
    ((LinkTree.reading f).restrict hP).Observes (fun t => linkView limit cwd paths r t.1) d Q
      fun _ => True := by
  refine reading_sees hP fun t ht hview => ?_
  cases hr : f t with
  | ok a => exact h t a ht hview hr
  | error e => exact trivial

/-- A target that is looked up is what the view shows of it. -/
theorem lookup_ends {path : FragmentPath} :
    (∃ found, t.lookup limit (some r) r (relativePath path) = .ok found ∧
      t.target limit r path = some found.2) ∨
    ∃ e, t.lookup limit (some r) r (relativePath path) = .error e ∧ t.target limit r path = none := by
  unfold LinkTree.target
  cases t.lookup limit (some r) r (relativePath path) with
  | ok found => exact .inl ⟨found, rfl, rfl⟩
  | error e => exact .inr ⟨e, rfl, rfl⟩

/-- Trees with links, in all of which the path of the source root leads to the directory `r`, as a
workspace. It does not matter which links there are, nor where the document stands. -/
noncomputable def linkWorkspace {access : AccessPolicy {t // P t} ε} (hgrants : access.Grants)
    (hroot : ∀ t, P t →
      t.layout.Leads none limit (paths.sourceRoot.start cwd) paths.sourceRoot.steps r) :
    Workspace ((linkFilesystem limit cwd).restrict hkeeps) access paths where
  view t := linkView limit cwd paths r t.1
  IsRoot dir := dir = r
  grant kind path d := by
    intro t ht
    rw [hgrants]
    exact ⟨ht, trivial⟩
  openRoot d := reading_sees_ok (hkeeps.openAmbientDir paths.sourceRoot) fun t dir ht _ h => by
    obtain ⟨_, -, h⟩ := Except.bind_eq_ok.1 h
    obtain ⟨found, hlookup, h⟩ := Except.bind_eq_ok.1 h
    obtain ⟨_, -, h⟩ := Except.bind_eq_ok.1 h
    cases h
    exact (hroot t ht).unique (LinkTree.lookup_eq_ok.1 hlookup).1
  dirMetadata dir path d := reading_sees_ok (hkeeps.dirMetadata dir path) fun _ _ _ _ _ => trivial
  targetMetadata dir path d := by
    rintro rfl
    refine reading_sees (hkeeps.dirMetadata dir (relativePath path)) fun t _ hview => ?_
    rw [← hview]
    rcases @lookup_ends limit dir t path with ⟨found, hlookup, htarget⟩ | ⟨e, hlookup, hnone⟩
    · rw [hlookup]
      exact htarget
    · rw [hlookup]
      exact fun _ => hnone
  targetOpen dir path d := by
    rintro rfl
    refine reading_sees (hkeeps.dirOpen dir (relativePath path)) fun t _ hview => ?_
    rw [← hview]
    rcases @lookup_ends limit dir t path with ⟨found, hlookup, htarget⟩ | ⟨e, hlookup, hnone⟩
    · rw [hlookup]
      exact ⟨found.2, htarget, (LinkTree.lookup_eq_ok.1 hlookup).2⟩
    · rw [hlookup]
      exact fun _ => hnone
  documentOpen d := reading_sees_ok (hkeeps.fileOpen paths.document) fun t file _ hview h => by
    rw [← hview]
    cases hlookup : t.lookup limit none (paths.document.start cwd) paths.document with
    | error e =>
      rw [hlookup] at h
      cases h
    | ok found =>
      rw [hlookup] at h
      cases h
      exact ⟨found.2, linkView_document.2 ⟨found, hlookup, rfl⟩, (LinkTree.lookup_eq_ok.1 hlookup).2⟩
  fileMetadata file d := reading_sees_ok (hkeeps.fileMetadata file) fun t m _ hview h m' hm' => by
    rw [← hview] at hm'
    exact Option.some.inj ((okOr_eq_ok.1 h).symm.trans hm')
  readToEnd file d := reading_sees_ok (hkeeps.readToEnd file) fun t bytes _ hview h m hm => by
    rw [← hview] at hm ⊢
    obtain ⟨m', hm', h⟩ := Except.bind_eq_ok.1 h
    obtain ⟨_, htype, h⟩ := Except.bind_eq_ok.1 h
    cases h
    obtain rfl := Option.some.inj ((okOr_eq_ok.1 hm').symm.trans hm)
    have hfile : t.HasFile m'.identity file := ⟨m', hm, rfl, by rw [require_eq_ok.1 htype]; simp⟩
    refine (LinkTree.fileContent_of hfile).trans ?_
    rw [hfile.identity.1]
  createDirAll dir path t := fun _ =>
    ⟨linkView_extends (LinkTree.createDirs_builds [] path.steps t.1).extends_,
      createDirs_content _ dir [] path.steps t.1⟩
  createNew dir path t result t' := by
    rintro rfl h
    have h := ((linkFilesystem limit cwd).restrict_along hkeeps).dirOpenWith _ _ _ |>.eq h
    rcases LinkTree.createNew_cases h with ⟨⟨e, rfl⟩, heq⟩ | ⟨x, rfl, hvacant, heq⟩
    · refine ⟨?_, ?_⟩
      · rw [heq]
        exact .refl _
      · exact congrArg LinkTree.fileContent heq
    · have hnone := (Layout.vacancy_eq_ok.1 hvacant).2
      have hextends : t.1.Extends t'.1 :=
        heq ▸ LinkTree.add_extends hnone fun target heq => by cases heq
      have hleads := Layout.leads_of_vacancy hvacant
      have hm : t'.1.metadata x = some ⟨.file, ⟨0, t.1.next⟩⟩ := by
        rw [heq]
        exact LinkTree.metadata_add_self _
      refine ⟨linkView_extends hextends, ⟨0, t.1.next⟩, target_eq_none hleads hnone,
        t.1.fileContent_next, LinkTree.target_eq_some.2 ⟨x, hleads.grows hextends.grows, hm⟩, hm, ?_⟩
      exact (congrArg LinkTree.fileContent heq).trans (LinkTree.fileContent_add_file hnone)
  truncate dir path t result t' := by
    rintro rfl h i hi
    have h := ((linkFilesystem limit cwd).restrict_along hkeeps).dirOpenWith _ _ _ |>.eq h
    obtain ⟨x, hleads, hm⟩ := LinkTree.target_eq_some.1 hi
    have hlookup : t.1.lookup limit (some dir) dir (relativePath path) = .ok (x, ⟨.file, i⟩) :=
      LinkTree.lookup_eq_ok.2 ⟨hleads, hm⟩
    have hopen := h.symm.trans (LinkTree.truncate_of_lookup hlookup)
    rw [if_neg (by simp)] at hopen
    obtain ⟨rfl, heq⟩ := Prod.mk.inj hopen
    refine ⟨?_, ?_, ?_⟩
    · rw [heq]
      exact linkView_extends (LinkTree.setContent_extends [])
    · rw [heq]
      exact hm
    · exact (congrArg LinkTree.fileContent heq).trans
        (LinkTree.fileContent_setContent ⟨_, hm, rfl, by simp⟩ [])
  writeAll file bytes t result t' := by
    intro h i hm hempty
    have h := ((linkFilesystem limit cwd).restrict_along hkeeps).writeAll _ _ |>.eq h
    obtain ⟨rfl, heq⟩ := Prod.mk.inj h
    refine ⟨?_, bytes.length, ?_, fun _ => List.take_length⟩
    · rw [← heq]
      exact linkView_extends (LinkTree.overwrite_extends bytes)
    · rw [List.take_length]
      exact (congrArg LinkTree.fileContent heq.symm).trans
        (LinkTree.fileContent_overwrite ⟨_, hm, rfl, by simp⟩ hempty bytes)
  writeDocument bytes t result t' := by
    intro h i hi
    have h := ((linkFilesystem limit cwd).restrict_along hkeeps).write _ _ |>.eq h
    obtain ⟨found, hlookup, rfl⟩ := linkView_document.1 hi
    have hopen := LinkTree.truncate_of_lookup hlookup
    by_cases htype : found.2.fileType = .directory
    · rw [if_pos htype] at hopen
      obtain ⟨rfl, heq⟩ := Prod.mk.inj ((Run.bind_of_error hopen).symm.trans h)
      obtain rfl : t = t' := Subtype.ext heq
      exact ⟨.refl _, .inl ⟨by simp, rfl⟩⟩
    · rw [if_neg htype] at hopen
      obtain ⟨rfl, heq⟩ := Prod.mk.inj ((Run.bind_of_ok hopen).symm.trans h)
      have hfile : t.1.HasFile found.2.identity found.1 :=
        ⟨found.2, (LinkTree.lookup_eq_ok.1 hlookup).2, rfl, htype⟩
      have hfile' : (t.1.setContent found.1 []).HasFile found.2.identity found.1 := hfile
      have hempty := LinkTree.fileContent_setContent hfile []
      refine ⟨?_, .inr ⟨bytes.length, ?_, fun _ => List.take_length⟩⟩
      · rw [← heq]
        exact linkView_extends
          ((LinkTree.setContent_extends []).trans (LinkTree.overwrite_extends bytes))
      · rw [List.take_length]
        refine (congrArg LinkTree.fileContent heq.symm).trans ?_
        rw [LinkTree.fileContent_overwrite hfile' (by rw [hempty, Function.update_self]), hempty,
          Function.update_idem]
        rfl

/-! ## Separate targets -/

/-- No link stands beneath the directory `r`, and what stands beneath it stands in a directory.
Links elsewhere may lead to `r` and to what is beneath it. -/
structure LinkTree.PlainBeneath (t : LinkTree) (r : Location) : Prop where
  plain : ∀ x target, x ≠ [] → t.layout (r ++ x) ≠ some (.link target)
  parent : ∀ x name, t.layout (r ++ (x ++ [name])) ≠ none → t.layout (r ++ x) = some .directory

/-- Directories and files that are added leave it so. No link is added, and what is added has its
place in a directory. -/
theorem LinkTree.Builds.plainBeneath (h : t.Builds t') (hplain : t.PlainBeneath r) :
    t'.PlainBeneath r := by
  constructor
  case plain =>
    intro x target hx hlink
    rcases h.extends_.grows (r ++ x) with heq | ⟨-, hother⟩
    · exact hplain.plain x target hx (heq ▸ hlink)
    · exact hother target hlink
  case parent =>
    intro x name hsome
    rw [← List.append_assoc] at hsome
    by_cases hnone : t.layout (r ++ x ++ [name]) = none
    · exact h.parent (r ++ x) name hnone hsome
    · rw [List.append_assoc] at hnone
      exact h.extends_.grows.eq_some (hplain.parent x name hnone)

namespace LinkTree.PlainBeneath
variable (h : t.PlainBeneath r)
include h

/-- Names lead beneath the directory, one location down for each. A link would be met beneath the
root, where there is none. -/
theorem leads_eq {x names found : List Str}
    (hleads : t.layout.Leads (some r) limit (r ++ x) (names.map Step.down) found) :
    found = r ++ (x ++ names) := by
  induction names generalizing x with
  | nil =>
    cases hleads
    rw [List.append_nil]
  | cons name names ih =>
    cases hleads with
    | down hdir hlink hrest =>
      rw [List.append_assoc] at hrest
      rw [ih hrest, List.append_assoc]
      rfl
    | link hdir hlink hrest =>
      rw [List.append_assoc] at hlink
      exact absurd hlink (h.plain _ _ (by simp))

/-- What stands beneath a directory stands in directories all the way down to it. -/
theorem above {x : Location} {name : Str} {names : List Str}
    (hsome : t.layout (r ++ (x ++ name :: names)) ≠ none) :
    t.layout (r ++ x) = some .directory := by
  induction names using List.reverseRecOn generalizing name with
  | nil => exact h.parent x name hsome
  | append_singleton names last ih =>
    have hdir := h.parent (x ++ name :: names) last (by simpa using hsome)
    exact @ih name (by simp [hdir])

/-- Where something stands, the names on the way lead to it. Beneath the root there are no links, so
each name leads one step down. -/
theorem leads {x names : List Str} (hsome : t.layout (r ++ (x ++ names)) ≠ none) :
    t.layout.Leads (some r) limit (r ++ x) (names.map Step.down) (r ++ (x ++ names)) := by
  induction names generalizing x with
  | nil =>
    rw [List.append_nil]
    exact .nil _ _
  | cons name names ih =>
    have hrest : x ++ [name] ++ names = x ++ name :: names := by simp
    have hbelow := ih (x := x ++ [name]) (hrest ▸ hsome)
    rw [hrest] at hbelow
    refine .down (h.above hsome) (fun target hlink => ?_) ?_
    · rw [List.append_assoc] at hlink
      exact h.plain _ target (by simp) hlink
    · rw [List.append_assoc]
      exact hbelow

end LinkTree.PlainBeneath

/-- Plain names are steps down. -/
theorem steps_of_plain {names : List Str} (hnames : PlainNames names) :
    Path.steps ⟨false, names⟩ = names.map Step.down := by
  refine List.map_congr_left fun name hname => ?_
  obtain ⟨hhere, hup⟩ := hnames name hname
  rw [stepOf, if_neg hhere, if_neg hup]

/-- A target is what stands at its location, if there are no links beneath the source root. So the
disk that is shown is that of the locations, as in a plain tree. -/
theorem LinkTree.PlainBeneath.target_eq (h : t.PlainBeneath r) (path : FragmentPath) :
    t.target limit r path = t.metadata (r ++ path.segments) := by
  have hsteps : (relativePath path).steps = path.segments.map Step.down :=
    steps_of_plain (FragmentPath.plainNames path)
  ext m
  rw [LinkTree.target_eq_some]
  constructor
  case mp =>
    rintro ⟨x, hleads, hm⟩
    rw [TargetLeads, hsteps] at hleads
    obtain rfl : x = r ++ ([] ++ path.segments) := h.leads_eq (by rwa [List.append_nil])
    exact hm
  case mpr =>
    intro hm
    refine ⟨_, ?_, hm⟩
    obtain ⟨occupant, hsome, -⟩ := LinkTree.metadata_eq_some.1 hm
    have hleads : t.layout.Leads (some r) limit (r ++ []) (path.segments.map Step.down)
        (r ++ ([] ++ path.segments)) := h.leads (by simp [hsome])
    rw [List.append_nil] at hleads
    rw [TargetLeads, hsteps]
    exact hleads

/-- Making directories along plain names leaves what does not stand on the way. Each directory that
is made has a location on the way, and it is no link. -/
theorem createDirs_elsewhere (h : t.PlainBeneath r) {names : List Str} (hnames : PlainNames names)
    {x : Location} (hx : ∀ below, below <+: names → below ≠ [] → x ≠ r ++ below) :
    (LinkTree.createDirs limit (some r) r [] (Path.steps ⟨false, names⟩) t).2.metadata x =
      t.metadata x := by
  -- That there are no links beneath `r` is kept along the way, and says where each directory is made.
  refine (LinkTree.createDirs_moves
    (R := fun t t' => t.PlainBeneath r → t'.PlainBeneath r ∧ t'.metadata x = t.metadata x)
    (fun _ h => ⟨h, rfl⟩) (fun t t' t'' hone hrest h => ?_) (fun below hbelow hnil t y hvacant h => ?_)
    t h).2
  · obtain ⟨h', heq⟩ := hone h
    exact ⟨(hrest h').1, (hrest h').2.trans heq⟩
  · refine ⟨(LinkTree.vacancy_builds hvacant fun target heq => by cases heq).plainBeneath h, ?_⟩
    rw [steps_of_plain hnames] at hbelow
    obtain ⟨below, hbelow', rfl⟩ := List.prefix_map_iff.1 hbelow
    have hleads := Layout.leads_of_vacancy hvacant
    obtain rfl : y = r ++ ([] ++ below) := h.leads_eq (by rwa [List.append_nil])
    exact LinkTree.metadata_add_of_ne (hx below hbelow' (by simpa using hnil)) _

/-- Opening a target leaves what stands elsewhere. -/
theorem openWith_elsewhere (h : t.PlainBeneath r) {path : FragmentPath} {options : OpenOptions}
    {x : Location} (hx : x ≠ r ++ path.segments) :
    (LinkTree.openWith limit (some r) r (relativePath path) options t).2.metadata x =
      t.metadata x := by
  refine LinkTree.openWith_moves (R := fun t t' => t.PlainBeneath r → t'.metadata x = t.metadata x)
    (fun _ _ => rfl) (fun _ _ _ => rfl) (fun t y name _ _ hleads h => ?_) t h
  rw [show (relativePath path).steps = path.segments.map Step.down from
    steps_of_plain (FragmentPath.plainNames path)] at hleads
  have hplace : y ++ [name] = r ++ ([] ++ path.segments) := h.leads_eq (by rwa [List.append_nil])
  rw [hplace]
  exact LinkTree.metadata_add_of_ne hx _

/-- The directories above a target leave each target that does not stand on the way to it. Each
directory is made at a name on the way, and no other target stands there. -/
theorem createDirs_target (h : t.PlainBeneath r) {path other : FragmentPath} {parent : Path}
    (hparent : nonemptyParent (relativePath path) = some parent)
    (hother : ¬ other.segments <+: path.segments.dropLast) :
    (LinkTree.createDirs limit (some r) r [] parent.steps t).2.target limit r other =
      t.target limit r other := by
  obtain rfl : parent = ⟨false, path.segments.dropLast⟩ := by
    rw [nonemptyParent_relativePath] at hparent
    split at hparent
    · cases hparent
    · exact (Option.some.inj hparent).symm
  rw [((LinkTree.createDirs_builds [] _ t).plainBeneath h).target_eq, h.target_eq]
  refine createDirs_elsewhere h (FragmentPath.plainParents path) fun below hbelow _ heq => hother ?_
  rw [List.append_cancel_left heq]
  exact hbelow

/-- Opening a target leaves the other targets. -/
theorem openWith_target (h : t.PlainBeneath r) {path other : FragmentPath} {options : OpenOptions}
    (hne : other ≠ path) :
    (LinkTree.openWith limit (some r) r (relativePath path) options t).2.target limit r other =
      t.target limit r other := by
  rw [((LinkTree.openWith_builds _ options t).plainBeneath h).target_eq, h.target_eq]
  refine openWith_elsewhere h fun heq => hne ?_
  exact FragmentPath.segments_injective (List.append_cancel_left heq)

/-- Writing over a document that is there leaves the targets. Nothing is created, so every location
keeps its occupant. -/
theorem write_target {found : Location × Metadata}
    (hlookup : t.lookup limit none (paths.document.start cwd) paths.document = .ok found)
    (other : FragmentPath) (bytes : Bytes) :
    ((linkFilesystem limit cwd).write paths.document bytes t).2.target limit r other =
      t.target limit r other := by
  have hopen := LinkTree.truncate_of_lookup hlookup
  by_cases htype : found.2.fileType = .directory
  · rw [if_pos htype] at hopen
    rw [show (linkFilesystem limit cwd).write paths.document bytes t = _ from
      Run.bind_of_error hopen]
  · rw [if_neg htype] at hopen
    rw [show (linkFilesystem limit cwd).write paths.document bytes t = _ from Run.bind_of_ok hopen]
    rfl

variable {P : LinkTree → Prop} {hkeeps : (linkFilesystem limit cwd).Keeps P}
  {access : AccessPolicy {t // P t} ε}

/-- Distinct targets are distinct files where no link stands beneath the source root, in all trees
that a command can meet, and no target is above another one. -/
theorem linkWorkspace_separate (hgrants : access.Grants)
    (hroot : ∀ t, P t →
      t.layout.Leads none limit (paths.sourceRoot.start cwd) paths.sourceRoot.steps r)
    (hplain : ∀ t, P t → t.PlainBeneath r) {targets : Set FragmentPath}
    (hfree : ∀ path ∈ targets, ∀ other ∈ targets, ¬ path.IsAncestor other) :
    (@linkWorkspace _ _ _ _ _ _ hkeeps _ hgrants hroot).Separate targets := by
  constructor
  case createDirAll =>
    intro dir path parent t hdir hpath hparent other hother _
    rw [show dir = r from hdir]
    exact createDirs_target (hplain t.1 t.2) hparent fun habove =>
      hfree other hother path hpath (FragmentPath.isAncestor_of_dropLast habove)
  case openWith =>
    intro dir path options t hdir _ other _ hne
    rw [show dir = r from hdir]
    exact openWith_target (hplain t.1 t.2) hne
  case writeAll =>
    exact fun _ _ _ _ _ => rfl
  case writeDocument =>
    intro bytes t hpresent other _
    obtain ⟨i, hi⟩ := Option.ne_none_iff_exists'.1 hpresent
    obtain ⟨found, hlookup, -⟩ := linkView_document.1 hi
    exact write_target hlookup other bytes

/-- Directories are made above a target, and not at it. -/
theorem linkWorkspace_makesAbove (hgrants : access.Grants)
    (hroot : ∀ t, P t →
      t.layout.Leads none limit (paths.sourceRoot.start cwd) paths.sourceRoot.steps r)
    (hplain : ∀ t, P t → t.PlainBeneath r) {targets : Set FragmentPath} :
    (@linkWorkspace _ _ _ _ _ _ hkeeps _ hgrants hroot).MakesAbove targets := by
  intro dir path parent t hdir _ hparent
  rw [show dir = r from hdir]
  refine createDirs_target (hplain t.1 t.2) hparent fun hprefix => ?_
  exact (FragmentPath.isAncestor_of_dropLast hprefix).2 rfl

end

/-! ## A sample -/

/-- The path of the source root leads to a directory beneath which there are no links. -/
structure Lodged (limit : Nat) (cwd : Location) (sourceRoot : Path) (r : Location) (t : LinkTree) :
    Prop where
  root : t.layout.Leads none limit (sourceRoot.start cwd) sourceRoot.steps r
  plain : t.PlainBeneath r

/-- Every operation keeps the source root where it lies. The links on the way to it stay, since
nothing is removed and no link is made. -/
theorem lodged_keeps (limit : Nat) (cwd : Location) (sourceRoot : Path) (r : Location) :
    (linkFilesystem limit cwd).Keeps (Lodged limit cwd sourceRoot r) :=
  linkFilesystem_keeps limit cwd fun _ _ h hbuilds =>
    ⟨h.root.grows hbuilds.extends_.grows, hbuilds.plainBeneath h.plain⟩

/-- Of the document and of the source root the root has links only: the directory `v` holds the
document, and `v/s` is the source root. -/
def lodgedTree : LinkTree where
  layout location :=
    if location = [] ∨ location = [['v']] ∨ location = [['v'], ['s']] then some .directory
    else if location = [['v'], sampleDocumentName] then some .file
    else if location = [sampleDocumentName] then some (.link [.down ['v'], .down sampleDocumentName])
    else if location = [['w']] then some (.link [.down ['v'], .down ['s']])
    else none
  inode location :=
    if location = [] then 0
    else if location = [['v']] then 1
    else if location = [['v'], ['s']] then 2
    else if location = [['v'], sampleDocumentName] then 3
    else if location = [sampleDocumentName] then 4
    else 5
  content _ := detourBuffer
  next := 6
  fresh location _ := by split_ifs <;> omega

/-- The sample paths: a document next to the link that leads to the source root. -/
def lodgedPaths : ResolvedPaths := ⟨⟨true, [sampleDocumentName]⟩, ⟨true, [['w']]⟩⟩

/-- In the sample the source root lies behind the link. -/
theorem lodgedTree_lodged : Lodged 40 [] lodgedPaths.sourceRoot [['v'], ['s']] lodgedTree := by
  have hbeneath : ∀ x, x ≠ [] → lodgedTree.layout ([['v'], ['s']] ++ x) = none := by
    intro x hx
    simp [lodgedTree, hx]
  refine ⟨Layout.walk_eq_ok.1 rfl, fun x target hx => ?_, fun x name hsome => ?_⟩
  · rw [hbeneath x hx]
    simp
  · exact absurd (hbeneath _ (by simp)) hsome

/-- The trees of the sample as a filesystem. -/
def lodgedFilesystem : FileSystem {t // Lodged 40 [] lodgedPaths.sourceRoot [['v'], ['s']] t}
    Location Location :=
  (linkFilesystem 40 []).restrict (lodged_keeps _ _ _ _)

/-- The sample tree with links as a workspace. -/
noncomputable def lodgedWorkspace : Workspace lodgedFilesystem AccessPolicy.direct lodgedPaths :=
  linkWorkspace (fun _ _ _ => rfl) fun _ h => h.root

/-- Any targets are separate here, since there is no link beneath the source root. -/
theorem lodgedWorkspace_separate (d : Disk Location) :
    lodgedWorkspace.Separate (lodgedWorkspace.targets d) :=
  linkWorkspace_separate _ _ (fun _ h => h.plain) (lodgedWorkspace.targets_free d)

end Zwirn.Sync
