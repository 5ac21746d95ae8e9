import Zwirn.Sync.Separate
import Zwirn.Sync.TreeCommit

/-!
# Plain trees as disks

A plain tree is a workspace, whatever it holds (`treeWorkspace`): what a disk shows of it is what
stands at the locations of the targets and of the document.
-/

namespace Zwirn.Sync

open Lib Fragment

namespace Tree
variable {t t' : Tree} {location : Location} {i : FileIdentity} {bytes : Bytes}

/-- What is no directory, and has the identity, stands at the location. -/
def HasFile (t : Tree) (i : FileIdentity) (location : Location) : Prop :=
  ∃ m, t.metadata location = some m ∧ m.identity = i ∧ m.fileType ≠ .directory

/-- What the file with an identity holds. -/
noncomputable def fileContent (t : Tree) (i : FileIdentity) : Option Bytes :=
  open Classical in
  if h : ∃ location, t.HasFile i location then some (t.content h.choose) else none

/-- An identity stands at one location only, since a plain tree has no hard links. -/
theorem HasFile.unique {location' : Location} (h : t.HasFile i location)
    (h' : t.HasFile i location') : location' = location := by
  obtain ⟨m, hm, hi, -⟩ := h
  obtain ⟨m', hm', hi', -⟩ := h'
  exact t.distinct _ _ _ _ hm' hm (hi'.trans hi.symm)

/-- The content of an identity is that of the location where it stands, -/
theorem fileContent_of (h : t.HasFile i location) : t.fileContent i = some (t.content location) := by
  have hexists : ∃ location, t.HasFile i location := ⟨location, h⟩
  rw [fileContent, dif_pos hexists, h.unique hexists.choose_spec]

/-- and an identity that stands nowhere has none. -/
theorem fileContent_eq_none (h : ∀ location, ¬ t.HasFile i location) : t.fileContent i = none := by
  rw [fileContent, dif_neg]
  exact fun hexists => h _ hexists.choose_spec

/-- The contents are those of the same files. -/
theorem fileContent_congr (h : ∀ location, t'.HasFile i location ↔ t.HasFile i location)
    (hcontent : ∀ location, t.HasFile i location → t'.content location = t.content location) :
    t'.fileContent i = t.fileContent i := by
  by_cases hexists : ∃ location, t.HasFile i location
  · obtain ⟨location, hm⟩ := hexists
    rw [fileContent_of hm, fileContent_of ((h location).2 hm), hcontent location hm]
  · push Not at hexists
    rw [fileContent_eq_none hexists,
      fileContent_eq_none fun location hm => hexists location ((h location).1 hm)]

/-- What stands in a tree stands in it when something is added. The new identity is one that nothing
had. -/
theorem hasFile_add {fileType : FileType} (hparent : t.IsDirectory location.dropLast)
    (hnew : t.metadata location = none) (hi : fileType = .directory ∨ i ≠ ⟨0, t.next⟩)
    (l : Location) : (t.add location fileType hparent hnew).HasFile i l ↔ t.HasFile i l := by
  refine ⟨fun h => ?_, fun h => ?_⟩
  · obtain ⟨m, hm, rfl, htype⟩ := h
    rcases metadata_add hparent hnew hm with hm | ⟨-, rfl⟩
    · exact ⟨m, hm, rfl, htype⟩
    · rcases hi with hi | hi
      · exact absurd hi htype
      · exact absurd rfl hi
  · obtain ⟨m, hm, rfl, htype⟩ := h
    exact ⟨m, add_extends hparent hnew _ _ hm, rfl, htype⟩

/-- Adding something changes no file that is there. -/
theorem content_add {fileType : FileType} (hparent : t.IsDirectory location.dropLast)
    (hnew : t.metadata location = none) {l : Location} (h : t.HasFile i l) :
    (t.add location fileType hparent hnew).content l = t.content l := by
  obtain ⟨m, hm, -, -⟩ := h
  refine Function.update_of_ne (fun heq => ?_) _ _
  rw [heq, hnew] at hm
  cases hm

/-- A new directory changes no file. -/
theorem fileContent_add_directory (hparent : t.IsDirectory location.dropLast)
    (hnew : t.metadata location = none) :
    (t.add location .directory hparent hnew).fileContent = t.fileContent := by
  funext i
  exact fileContent_congr (hasFile_add hparent hnew (.inl rfl)) fun l => content_add hparent hnew

/-- A new file is empty, and the others are as they were. Its location was vacant. -/
theorem fileContent_add_file (hparent : t.IsDirectory location.dropLast)
    (hnew : t.metadata location = none) : (t.add location .file hparent hnew).fileContent =
      Function.update t.fileContent ⟨0, t.next⟩ (some []) := by
  funext i
  by_cases hi : i = ⟨0, t.next⟩
  · subst hi
    have hself : (t.add location .file hparent hnew).HasFile ⟨0, t.next⟩ location :=
      ⟨_, Function.update_self _ _ _, rfl, by simp⟩
    rw [Function.update_self, fileContent_of hself]
    exact congrArg some (Function.update_self _ _ _)
  · rw [Function.update_of_ne hi]
    exact fileContent_congr (hasFile_add hparent hnew (.inr hi)) fun l => content_add hparent hnew

/-- A file whose content is set holds it, and the others what they held. An identity stands at one
location, so the content of the others is elsewhere. -/
theorem fileContent_setContent (h : t.HasFile i location) (bytes : Bytes) :
    (t.setContent location bytes).fileContent =
      Function.update t.fileContent i (some bytes) := by
  funext j
  by_cases hj : j = i
  · subst hj
    have hself : (t.setContent location bytes).HasFile j location := h
    rw [Function.update_self, fileContent_of hself]
    exact congrArg some (Function.update_self _ _ _)
  · rw [Function.update_of_ne hj]
    have hsame : ∀ l, (t.setContent location bytes).HasFile j l ↔ t.HasFile j l := fun _ => .rfl
    refine fileContent_congr hsame fun l hl => ?_
    refine Function.update_of_ne (fun heq => ?_) _ _
    obtain ⟨m, hm, hmi, -⟩ := h
    obtain ⟨m', hm', hmj, -⟩ := hl
    rw [heq, hm] at hm'
    rw [← hmj, ← hmi, Option.some.inj hm'] at hj
    exact hj rfl

end Tree

section
variable {ε : Type} {cwd : Location} {paths : ResolvedPaths} {access : AccessPolicy Tree ε}

/-- Where a path of plain names leads. -/
def Path.location (cwd : Location) (path : Path) : Location := path.start cwd ++ path.components

/-- What a tree shows of the targets and of the document. -/
noncomputable def treeView (cwd : Location) (paths : ResolvedPaths) (t : Tree) : Disk Location where
  target path := t.metadata (paths.sourceRoot.location cwd ++ path.segments)
  document := (t.metadata (paths.document.location cwd)).map Metadata.identity
  handle := t.metadata
  content := t.fileContent

/-- A tree that grows shows a disk that grows. -/
theorem treeView_extends {t t' : Tree} (h : t.Extends t') :
    (treeView cwd paths t).Extends (treeView cwd paths t') := by
  refine ⟨fun path m hm => h _ _ hm, fun i hi => ?_, fun file m hm => h _ _ hm⟩
  obtain ⟨m, hm, rfl⟩ := Option.map_eq_some_iff.1 hi
  exact Option.map_eq_some_iff.2 ⟨m, h _ _ hm, rfl⟩

/-- A reading operation observes the disk if what it reads follows from what the disk shows. -/
theorem reading_observes {α : Type} {d : Disk Location} {Q : α → Prop} {P : IoError → Prop}
    {f : Tree → Except IoError α} (h : ∀ t, treeView cwd paths t = d → Run.Ends Q P (f t)) :
    (Tree.reading f).Observes (treeView cwd paths) d Q P := fun t ht => ⟨ht, h t ht⟩

/-- A reading whose failures do not matter. -/
theorem reading_returns {α : Type} {d : Disk Location} {Q : α → Prop}
    {f : Tree → Except IoError α} (h : ∀ t a, treeView cwd paths t = d → f t = .ok a → Q a) :
    (Tree.reading f).Observes (treeView cwd paths) d Q fun _ => True := by
  refine reading_observes fun t ht => ?_
  cases hr : f t with
  | ok a => exact h t a ht hr
  | error e => exact trivial

/-- Directories are made, and no file changes. The induction is on the names, and a directory is no
file. -/
theorem createDirs_quiet (location : Location) (names : List Str) (t : Tree) :
    t.Extends (Tree.createDirs location names t).2 ∧
      (Tree.createDirs location names t).2.fileContent = t.fileContent := by
  induction names generalizing location t with
  | nil => exact ⟨.refl t, rfl⟩
  | cons name names ih =>
    have hone : t.Extends (Tree.ensureDirectory (location.step name) t).2 ∧
        (Tree.ensureDirectory (location.step name) t).2.fileContent = t.fileContent := by
      unfold Tree.ensureDirectory
      rw [Run.bind_of_ok (Tree.reading_metadata t _)]
      cases hm : t.metadata (location.step name) with
      | some m =>
        dsimp only
        split
        · exact ⟨.refl t, rfl⟩
        · exact ⟨.refl t, rfl⟩
      | none =>
        dsimp only [Tree.create]
        rw [dif_pos hm]
        split
        · next hparent =>
          exact ⟨Tree.add_extends hparent hm, Tree.fileContent_add_directory hparent hm⟩
        · exact ⟨.refl t, rfl⟩
    rw [Tree.createDirs, Run.bind_apply]
    cases hrun : Tree.ensureDirectory (location.step name) t with
    | mk r t₁ =>
    rw [hrun] at hone
    cases r with
    | error e => exact hone
    | ok u =>
      obtain ⟨hextends, hcontent⟩ := ih (location.step name) t₁
      exact ⟨hone.1.trans hextends, hcontent.trans hone.2⟩

/-- What `create` makes is an empty file where nothing was. It fails where something is, or where
there is no directory to create it in. -/
theorem create_file {location : Location} {t t' : Tree} {r : Except IoError Unit}
    (h : Tree.create location .file t = (r, t')) :
    (r ≠ .ok () ∧ t' = t) ∨ r = .ok () ∧ t.metadata location = none ∧ t.Extends t' ∧
      t'.metadata location = some ⟨.file, ⟨0, t.next⟩⟩ ∧
      t'.fileContent = Function.update t.fileContent ⟨0, t.next⟩ (some []) := by
  unfold Tree.create at h
  split at h
  · next hnew =>
    split at h
    · next hparent =>
      cases h
      exact .inr ⟨rfl, hnew, Tree.add_extends hparent hnew, Function.update_self _ _ _,
        Tree.fileContent_add_file hparent hnew⟩
    · cases h
      exact .inl ⟨by simp, rfl⟩
  · cases h
    exact .inl ⟨by simp, rfl⟩

/-- The next identity has no content yet. -/
theorem fileContent_fresh (t : Tree) : t.fileContent ⟨0, t.next⟩ = none := by
  refine Tree.fileContent_eq_none fun location h => ?_
  obtain ⟨m, hm, hi, -⟩ := h
  have hfresh := t.fresh location m hm
  rw [hi] at hfresh
  exact Nat.lt_irrefl _ hfresh

/-- Exclusive creation fails, or makes an empty file. The names lead to one location, where nothing
may be. -/
theorem openWith_createNew {location : Location} {names : List Str} (hplain : PlainNames names)
    {t t' : Tree} {r : Except IoError Location}
    (h : Tree.openWith location names ⟨true, false, true, false⟩ t = (r, t')) :
    ((∃ e, r = .error e) ∧ t' = t) ∨ r = .ok (location ++ names) ∧
      t.metadata (location ++ names) = none ∧ t.Extends t' ∧
      t'.metadata (location ++ names) = some ⟨.file, ⟨0, t.next⟩⟩ ∧
      t'.fileContent = Function.update t.fileContent ⟨0, t.next⟩ (some []) := by
  unfold Tree.openWith at h
  rw [Run.bind_apply] at h
  cases hwalk : t.walk location names with
  | error e =>
    rw [show Tree.reading (fun t => t.walk location names) t = (.error e, t) by
      rw [Tree.reading, hwalk]] at h
    cases h
    exact .inl ⟨⟨e, rfl⟩, rfl⟩
  | ok l =>
    obtain rfl := Tree.walk_eq_ok hplain hwalk
    rw [show Tree.reading (fun t => t.walk location names) t = (.ok (location ++ names), t) by
      rw [Tree.reading, hwalk]] at h
    dsimp only at h
    rw [Run.bind_of_ok (Tree.reading_metadata t _)] at h
    cases hm : t.metadata (location ++ names) with
    | some m =>
      rw [hm] at h
      cases h
      exact .inl ⟨⟨_, rfl⟩, rfl⟩
    | none =>
      rw [hm] at h
      dsimp only at h
      rw [if_pos (.inr rfl), Run.bind_apply] at h
      cases hcreate : Tree.create (location ++ names) .file t with
      | mk created t₁ =>
      have hcases := create_file hcreate
      rw [hcreate] at h
      cases created with
      | error e =>
        cases h
        rcases hcases with ⟨-, rfl⟩ | ⟨hok, -⟩
        · exact .inl ⟨⟨e, rfl⟩, rfl⟩
        · cases hok
      | ok u =>
        cases h
        rcases hcases with ⟨hne, -⟩ | ⟨-, -, hrest⟩
        · exact absurd rfl hne
        · exact .inr ⟨rfl, rfl, hrest⟩

/-- A file that is written over holds what was written, if it was empty. -/
theorem fileContent_overwrite {t : Tree} {location : Location} {i : FileIdentity}
    (h : t.HasFile i location) (hempty : t.fileContent i = some []) (bytes : Bytes) :
    (t.overwrite location bytes).fileContent =
      Function.update t.fileContent i (some bytes) := by
  have hcontent : t.content location = [] := by
    rw [Tree.fileContent_of h] at hempty
    exact Option.some.inj hempty
  rw [Tree.overwrite, hcontent, List.drop_nil, List.append_nil]
  exact Tree.fileContent_setContent h bytes

/-- A write over what is there fails, or replaces what it holds. It may be refused, as the write to
a directory is. -/
theorem write_over {location : Location} {names : List Str} (hplain : PlainNames names)
    {t t' : Tree} {r : Except IoError Unit} {m : Metadata}
    (hm : t.metadata (location ++ names) = some m) {bytes : Bytes}
    (h : (Tree.openWith location names ⟨true, true, false, true⟩ >>= fun file =>
      Tree.writeAll file bytes) t = (r, t')) :
    ((∃ e, r = .error e) ∧ t' = t) ∨ r = .ok () ∧ t.Extends t' ∧
      t'.fileContent = Function.update t.fileContent m.identity (some bytes) := by
  have hwalk : Tree.reading (fun t => t.walk location names) t = (.ok (location ++ names), t) := by
    rw [Tree.reading, Tree.walk_of_some hplain (by rw [hm]; simp)]
  by_cases htype : m.fileType = .directory
  · have hopen : Tree.openWith location names ⟨true, true, false, true⟩ t =
        (.error ⟨.other, "is a directory"⟩, t) := by
      rw [Tree.openWith, Run.bind_of_ok hwalk, Run.bind_of_ok (Tree.reading_metadata _ _), hm]
      dsimp only
      rw [if_neg Bool.false_ne_true, if_pos htype]
      rfl
    rw [Run.bind_of_error hopen] at h
    cases h
    exact .inl ⟨⟨_, rfl⟩, rfl⟩
  · have hopen : Tree.openWith location names ⟨true, true, false, true⟩ t =
        (.ok (location ++ names), t.setContent (location ++ names) []) := by
      rw [Tree.openWith, Run.bind_of_ok hwalk, Run.bind_of_ok (Tree.reading_metadata _ _), hm]
      dsimp only
      rw [if_neg Bool.false_ne_true, if_neg htype]
      rfl
    have hfile : t.HasFile m.identity (location ++ names) := ⟨m, hm, rfl, htype⟩
    have hfile' : (t.setContent (location ++ names) []).HasFile m.identity (location ++ names) :=
      hfile
    have hempty := Tree.fileContent_setContent hfile []
    rw [Run.bind_of_ok hopen] at h
    cases h
    refine .inr ⟨rfl, fun _ _ h => h, ?_⟩
    rw [fileContent_overwrite hfile' (by rw [hempty, Function.update_self]), hempty,
      Function.update_idem]

/-- What does not stand on the way stays when directories are made. The induction is on the
names. -/
theorem createDirs_metadata {location : Location} {names : List Str} (hplain : PlainNames names)
    (t : Tree) {l : Location} (hl : ∀ below, below <+: names → below ≠ [] → l ≠ location ++ below) :
    (Tree.createDirs location names t).2.metadata l = t.metadata l := by
  induction names generalizing location t with
  | nil => rfl
  | cons name names ih =>
    obtain ⟨hname, hnames⟩ := List.forall_mem_cons.1 hplain
    have hstep : location.step name = location ++ [name] := Location.step_plain hname
    have hne : l ≠ location ++ [name] :=
      hl [name] (List.cons_prefix_cons.2 ⟨rfl, List.nil_prefix⟩) (List.cons_ne_nil _ _)
    have hone : (Tree.ensureDirectory (location.step name) t).2.metadata l = t.metadata l := by
      unfold Tree.ensureDirectory
      rw [Run.bind_of_ok (Tree.reading_metadata t _), hstep]
      cases hm : t.metadata (location ++ [name]) with
      | some m =>
        dsimp only
        split <;> rfl
      | none =>
        dsimp only [Tree.create]
        rw [dif_pos hm]
        split
        · exact Function.update_of_ne hne _ _
        · rfl
    rw [Tree.createDirs, Run.bind_apply]
    cases hrun : Tree.ensureDirectory (location.step name) t with
    | mk r t₁ =>
    rw [hrun] at hone
    cases r with
    | error e => exact hone
    | ok u =>
      refine (ih hnames t₁ fun below hbelow hnil => ?_).trans hone
      rw [hstep, List.append_assoc]
      exact hl _ (List.cons_prefix_cons.2 ⟨rfl, hbelow⟩) (List.cons_ne_nil _ _)

/-- What stands somewhere, or elsewhere, stays when a file is opened. Only the location of the file
itself can get something new. -/
theorem openWith_metadata {location : Location} {names : List Str} (hplain : PlainNames names)
    (options : OpenOptions) (t : Tree) {l : Location}
    (hl : l = location ++ names → t.metadata l ≠ none) :
    (Tree.openWith location names options t).2.metadata l = t.metadata l := by
  unfold Tree.openWith
  cases hwalk : t.walk location names with
  | error e =>
    rw [Run.bind_of_error (t := t) (by rw [Tree.reading, hwalk])]
  | ok location' =>
    obtain rfl := Tree.walk_eq_ok hplain hwalk
    rw [Run.bind_of_ok (t := t) (by rw [Tree.reading, hwalk]),
      Run.bind_of_ok (Tree.reading_metadata t _)]
    cases hm : t.metadata (location ++ names) with
    | some m =>
      dsimp only
      split
      · rfl
      · split
        · rfl
        · split <;> rfl
    | none =>
      have hne : l ≠ location ++ names := fun heq => hl heq (heq ▸ hm)
      have hcreate : (Tree.create (location ++ names) .file t).2.metadata l = t.metadata l := by
        rw [Tree.create, dif_pos hm]
        split
        · exact Function.update_of_ne hne _ _
        · rfl
      dsimp only
      split
      · rw [Run.bind_apply]
        split
        · next h =>
          rw [h] at hcreate
          exact hcreate
        · next h =>
          rw [h] at hcreate
          exact hcreate
      · rfl

/-- A plain tree, seen from a source root and a document with plain names. At the target of a path
the disk shows what stands there beneath the root. -/
noncomputable def treeWorkspace (cwd : Location) (hgrants : access.Grants)
    (hroot : PlainNames paths.sourceRoot.components)
    (hdocument : PlainNames paths.document.components) :
    Workspace (treeFilesystem cwd) access paths where
  view := treeView cwd paths
  IsRoot dir := dir = paths.sourceRoot.location cwd
  grant kind path d := by
    intro t ht
    rw [hgrants]
    exact ⟨ht, trivial⟩
  openRoot d := reading_returns fun t dir _ h => by
    obtain ⟨_, -, h⟩ := Except.bind_eq_ok.1 h
    obtain ⟨found, hlookup, h⟩ := Except.bind_eq_ok.1 h
    obtain ⟨-, -, h⟩ := Except.bind_eq_ok.1 h
    cases h
    exact ((Tree.lookup_eq_ok hroot).1 hlookup).1
  dirMetadata dir path d := reading_returns fun _ _ _ _ => trivial
  targetMetadata dir path d := by
    rintro rfl
    refine reading_observes fun t ht => ?_
    rw [← ht]
    dsimp only [relativePath]
    rcases t.lookup_cases (paths.sourceRoot.location cwd) (FragmentPath.plainNames path) with
      ⟨m, hlookup, hm⟩ | ⟨e, hlookup, hm⟩
    · rw [hlookup]
      exact hm
    · rw [hlookup]
      exact fun _ => hm
  targetOpen dir path d := by
    rintro rfl
    refine reading_observes fun t ht => ?_
    rw [← ht]
    dsimp only [relativePath]
    rcases t.lookup_cases (paths.sourceRoot.location cwd) (FragmentPath.plainNames path) with
      ⟨m, hlookup, hm⟩ | ⟨e, hlookup, hm⟩
    · rw [hlookup]
      exact ⟨m, hm, hm⟩
    · rw [hlookup]
      exact fun _ => hm
  documentOpen d := reading_returns fun t file ht h => by
    rw [← ht]
    cases hlookup : t.lookup (paths.document.start cwd) paths.document.components with
    | error e =>
      rw [hlookup] at h
      cases h
    | ok found =>
      rw [hlookup] at h
      cases h
      obtain ⟨hlocation, hm⟩ := (Tree.lookup_eq_ok hdocument).1 hlookup
      dsimp only
      rw [hlocation]
      exact ⟨found.2, congrArg (Option.map Metadata.identity) hm, hm⟩
  fileMetadata file d := reading_returns fun t m ht h m' hm' => by
    rw [← ht, show (treeView cwd paths t).handle file = some m from okOr_eq_ok.1 h] at hm'
    exact Option.some.inj hm'
  readToEnd file d := reading_returns fun t bytes ht h m hm => by
    rw [← ht] at hm ⊢
    obtain ⟨m', hm', h⟩ := Except.bind_eq_ok.1 h
    obtain ⟨_, htype, h⟩ := Except.bind_eq_ok.1 h
    cases h
    have hmetadata : t.metadata file = some m := hm
    rw [okOr_eq_ok.1 hm'] at hmetadata
    cases hmetadata
    exact Tree.fileContent_of ⟨m, hm, rfl, by rw [require_eq_ok.1 htype]; simp⟩
  createDirAll dir path t := fun _ =>
    ⟨treeView_extends (createDirs_quiet dir path.components t).1,
      (createDirs_quiet dir path.components t).2⟩
  createNew dir path t r t' := by
    rintro rfl h
    rcases openWith_createNew (FragmentPath.plainNames path) h with
      ⟨⟨e, rfl⟩, rfl⟩ | ⟨rfl, hnone, hextends, hm, hcontent⟩
    · exact ⟨.refl _, rfl⟩
    · exact ⟨treeView_extends hextends, _, hnone, fileContent_fresh t, hm, hm, hcontent⟩
  truncate dir path t r t' := by
    rintro rfl h i hi
    have hm : t.metadata (paths.sourceRoot.location cwd ++ path.segments) = some ⟨.file, i⟩ := hi
    have hopen := Tree.truncate_ok
      (Tree.walk_of_some (FragmentPath.plainNames path) (by rw [hm]; simp)) hm
    obtain ⟨rfl, rfl⟩ := Prod.mk.inj (h.symm.trans hopen)
    exact ⟨treeView_extends fun _ _ h => h, hm, Tree.fileContent_setContent ⟨_, hm, rfl, by simp⟩ []⟩
  writeAll file bytes t r t' := by
    intro h i hm hempty
    cases h
    refine ⟨treeView_extends fun _ _ h => h, bytes.length, ?_, fun _ => List.take_length⟩
    rw [List.take_length]
    exact fileContent_overwrite ⟨_, hm, rfl, by simp⟩ hempty bytes
  writeDocument bytes t r t' := by
    intro h i hi
    obtain ⟨m, hm, rfl⟩ := Option.map_eq_some_iff.1 hi
    rcases write_over hdocument hm h with ⟨⟨e, rfl⟩, rfl⟩ | ⟨-, hextends, hcontent⟩
    · exact ⟨.refl _, .inl ⟨by simp, rfl⟩⟩
    · refine ⟨treeView_extends hextends, .inr ⟨bytes.length, ?_, fun _ => List.take_length⟩⟩
      rw [List.take_length]
      exact hcontent

/-- The targets of a plain tree are separate when none of them is above another. Each operation is
about the location of one target, and the others have locations of their own. -/
theorem treeWorkspace_separate (cwd : Location) (hgrants : access.Grants)
    (hroot : PlainNames paths.sourceRoot.components)
    (hdocument : PlainNames paths.document.components) {targets : Set FragmentPath}
    (hfree : ∀ path ∈ targets, ∀ other ∈ targets, ¬ path.IsAncestor other) :
    (treeWorkspace cwd hgrants hroot hdocument).Separate targets := by
  constructor
  case createDirAll =>
    rintro dir path parent t rfl hpath hparent other hother hne
    obtain rfl : parent = ⟨false, path.segments.dropLast⟩ := by
      rw [nonemptyParent_relativePath] at hparent
      split at hparent
      · cases hparent
      · exact (Option.some.inj hparent).symm
    refine createDirs_metadata (FragmentPath.plainParents path) t fun below hbelow _ heq => ?_
    refine hfree other hother path hpath (FragmentPath.isAncestor_of_dropLast ?_)
    rw [List.append_cancel_left heq]
    exact hbelow
  case openWith =>
    rintro dir path options t rfl - other - hne
    exact openWith_metadata (FragmentPath.plainNames path) options t fun heq =>
      absurd (FragmentPath.segments_injective (List.append_cancel_left heq)) hne
  case writeAll => exact fun _ _ _ _ _ => rfl
  case writeDocument =>
    intro bytes t hpresent other _
    have hsome : t.metadata (paths.document.location cwd) ≠ none :=
      fun hnone => hpresent (congrArg (Option.map Metadata.identity) hnone)
    have hopen := @openWith_metadata (paths.document.start cwd) paths.document.components hdocument
      ⟨true, true, false, true⟩ t (paths.sourceRoot.location cwd ++ other.segments)
      fun heq => by rw [heq]; exact hsome
    refine Eq.trans ?_ hopen
    dsimp only [treeWorkspace, treeView, treeFilesystem]
    rw [Run.bind_apply]
    split
    · next h => rw [h]; rfl
    · next h => rw [h]

/-- Directories of a plain tree are made above a target. So what is at a target that is not above it
stays. -/
theorem treeWorkspace_makesAbove (cwd : Location) (hgrants : access.Grants)
    (hroot : PlainNames paths.sourceRoot.components)
    (hdocument : PlainNames paths.document.components) {targets : Set FragmentPath} :
    (treeWorkspace cwd hgrants hroot hdocument).MakesAbove targets := by
  rintro dir path parent t rfl - hparent
  obtain rfl : parent = ⟨false, path.segments.dropLast⟩ := by
    rw [nonemptyParent_relativePath] at hparent
    split at hparent
    · cases hparent
    · exact (Option.some.inj hparent).symm
  refine createDirs_metadata (FragmentPath.plainParents path) t fun below hbelow _ heq => ?_
  rw [← List.append_cancel_left heq] at hbelow
  have hlength := hbelow.length_le
  have hpositive := List.length_pos_of_ne_nil path.segments_ne_nil
  rw [List.length_dropLast] at hlength
  omega

end

/-- The paths of the sample request. -/
def sampleResolved : ResolvedPaths := ⟨⟨true, [sampleDocumentName]⟩, ⟨true, []⟩⟩

/-- The sample trees as a workspace. -/
noncomputable def sampleWorkspace :
    Workspace (treeFilesystem []) AccessPolicy.direct sampleResolved :=
  treeWorkspace [] (fun _ _ _ => rfl) (by simp [PlainNames, sampleResolved])
    (by simp [PlainNames, sampleResolved, sampleDocumentName])

end Zwirn.Sync
