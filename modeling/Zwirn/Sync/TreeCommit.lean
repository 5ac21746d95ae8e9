import Zwirn.Sync.Prepare
import Zwirn.Sync.Stages
import Zwirn.Sync.Tree

/-!
# Commits on a plain tree

On a plain tree what discovery has checked is enough for the commit. `Fits` is what it leaves of
the targets, `Grown` says what the tree has become behind some of the outputs, and as no target
lies beneath another one, the next output can be written (`commitExternal_grown`). So a prepared
batch is committed (`Prepares.commit_ok`).
-/

namespace Zwirn.Sync

open Lib Fragment Adls

/-- Every access is granted, and granting leaves the state as it is. -/
def AccessPolicy.Grants {σ ε : Type} (access : AccessPolicy σ ε) : Prop :=
  ∀ kind path s, access.grant kind path s = (.ok (), s)

/-- A granted access does what its body does. -/
theorem AccessPolicy.Grants.flatten {σ ε ε' α : Type} {access : AccessPolicy σ ε}
    (h : access.Grants) (kind : AccessKind) (path : Path) (body : Run σ ε' α) (s : σ) :
    flatten (access.around kind path body) s = ((mapError .operation (body s).1), (body s).2) := by
  rw [flatten_around, h]

/-- The segments of a path are plain names. -/
theorem FragmentPath.plainNames (path : FragmentPath) : PlainNames path.segments :=
  path.segments_plain

/-- So are those of the directory above it. -/
theorem FragmentPath.plainParents (path : FragmentPath) : PlainNames path.segments.dropLast :=
  (FragmentPath.plainNames path).ofStart (List.dropLast_prefix _)

/-! ## What discovery leaves -/

section
variable {ε : Type} {cwd : Location} {t t' : Tree} {root : SourceRoot Location}
  {origin : Option DocumentOrigin}

/-- Nothing, or a directory, stands at a location. -/
def Tree.Free (t : Tree) (location : Location) : Prop :=
  t.metadata location = none ∨ t.IsDirectory location

/-- What stands at plain names is found where they lead, and it is not found only if nothing is
there. -/
theorem metadata_tree (root : SourceRoot Location) {names : List Str} (hplain : PlainNames names) :
    (∃ m, root.metadata (treeFilesystem cwd) ⟨false, names⟩ t = (.ok m, t) ∧
      t.metadata (root.directory ++ names) = some m) ∨
    ∃ e, root.metadata (treeFilesystem cwd) ⟨false, names⟩ t = (.error e, t) ∧
      t.metadata (root.directory ++ names) = none := by
  have happly : root.metadata (treeFilesystem cwd) ⟨false, names⟩ t =
      ((·.2) <$> t.lookup root.directory names, t) := rfl
  rw [happly]
  rcases t.lookup_cases root.directory hplain with ⟨m, hlookup, hm⟩ | ⟨e, hlookup, hm⟩
  · exact .inl ⟨m, by rw [hlookup]; rfl, hm⟩
  · exact .inr ⟨e, by rw [hlookup]; rfl, hm⟩

/-- A directory that passes its check leaves the tree alone, and a directory or nothing is there.
Something else than a directory fails the check. -/
theorem validateOptionalDirectory_tree {names : List Str} (hplain : PlainNames names) {u : Unit}
    (h : validateOptionalDirectory (treeFilesystem cwd) root ⟨false, names⟩ t = (.ok u, t')) :
    t' = t ∧ t.Free (root.directory ++ names) := by
  unfold validateOptionalDirectory at h
  rcases @metadata_tree cwd t root names hplain with ⟨m, hrun, hm⟩ | ⟨e, hrun, hm⟩
  · rw [Run.bind_of_ok (Run.attempt_of hrun)] at h
    dsimp only at h
    split at h
    · next htype =>
      cases h
      exact ⟨rfl, .inr (by rw [Tree.IsDirectory, hm, Option.map_some, htype])⟩
    · cases h
  · rw [Run.bind_of_ok (Run.attempt_of hrun)] at h
    dsimp only at h
    split at h
    · cases h
      exact ⟨rfl, .inl hm⟩
    · cases h

/-- So do the directories above a target, from the one that was reached on. The induction is on the
segments that are left. -/
theorem validateParentsFrom_tree {path : FragmentPath} {parent segments : List Str}
    (hplain : PlainNames (parent ++ segments)) {u : Unit}
    (h : validateParentsFrom (treeFilesystem cwd) root path parent segments t = (.ok u, t')) :
    t' = t ∧ ∀ names, names ≠ [] → names <+: segments →
      t.Free (root.directory ++ (parent ++ names)) := by
  induction segments generalizing parent with
  | nil =>
    cases h
    exact ⟨rfl, fun names hne hnames => absurd (List.prefix_nil.1 hnames) hne⟩
  | cons segment segments ih =>
    have hcons : ∀ names, parent ++ segment :: names = parent ++ [segment] ++ names := by simp
    obtain ⟨_, t₁, hone, hrest⟩ := Run.bind_eq_ok.1 h
    have hplain₁ : PlainNames (parent ++ [segment]) := by
      rw [hcons] at hplain
      exact hplain.ofStart (List.prefix_append _ _)
    obtain ⟨rfl, hfree⟩ := validateOptionalDirectory_tree hplain₁ (Run.mapError_eq_ok.1 hone)
    obtain ⟨rfl, hall⟩ := @ih (parent ++ [segment]) (by rwa [← hcons]) hrest
    refine ⟨rfl, fun names hne hnames => ?_⟩
    cases names with
    | nil => exact absurd rfl hne
    | cons name names =>
      obtain ⟨rfl, hbelow⟩ := List.cons_prefix_cons.1 hnames
      rw [hcons]
      by_cases hnil : names = []
      · rwa [hnil, List.append_nil]
      · exact hall names hnil hbelow

/-- Above a target that passes its check there are directories, or nothing. -/
theorem validateParents_tree {path : FragmentPath} {u : Unit}
    (h : validateParents (treeFilesystem cwd) root path t = (.ok u, t')) :
    t' = t ∧ ∀ names, names ≠ [] → names <+: path.segments.dropLast →
      t.Free (root.directory ++ names) := by
  have hparent : (relativePath path).parent = some ⟨false, path.segments.dropLast⟩ :=
    if_neg path.segments_ne_nil
  rw [validateParents, hparent] at h
  exact validateParentsFrom_tree (by simpa using FragmentPath.plainParents path) h

/-- A target that is read is a file, and one that is not read is missing. The probe and the opening
see the same, since nothing happens in between. -/
theorem readOptionalTarget_tree {path : FragmentPath} {target : Path}
    {input : Option ExistingInput}
    (h : readOptionalTarget (treeFilesystem cwd) root path target t = (.ok input, t')) :
    t' = t ∧ (input = none → t.metadata (root.directory ++ path.segments) = none) ∧
      (input ≠ none → ∃ identity,
        t.metadata (root.directory ++ path.segments) = some ⟨.file, identity⟩) := by
  have hplain := FragmentPath.plainNames path
  have hmetadata : (∃ m, root.metadata (treeFilesystem cwd) (relativePath path) t = (.ok m, t) ∧
      t.metadata (root.directory ++ path.segments) = some m) ∨
    ∃ e, root.metadata (treeFilesystem cwd) (relativePath path) t = (.error e, t) ∧
      t.metadata (root.directory ++ path.segments) = none := metadata_tree root hplain
  unfold readOptionalTarget at h
  rcases hmetadata with ⟨m, hrun, hm⟩ | ⟨e, hrun, hm⟩
  · rw [Run.bind_of_ok (Run.attempt_of hrun)] at h
    dsimp only at h
    split at h
    · cases h
    · next htype =>
      have hfile : m.fileType = .file := not_not.1 htype
      have hopen : root.openTarget (treeFilesystem cwd) path t =
          (.ok (root.directory ++ path.segments), t) := by
        have happly : root.openTarget (treeFilesystem cwd) path t =
            ((·.1) <$> t.lookup root.directory path.segments, t) := rfl
        rw [happly, (Tree.lookup_eq_ok hplain).2 ⟨rfl, hm⟩]
        rfl
      rw [Run.bind_of_ok (Run.attempt_of hopen)] at h
      obtain ⟨metadata, t₁, hopened, hread⟩ := Run.bind_eq_ok.1 h
      obtain ⟨-, rfl⟩ := Tree.reading_eq_ok.1 (Run.mapError_eq_ok.1 hopened)
      by_cases hregular : metadata.fileType ≠ .file
      · rw [if_pos hregular] at hread
        cases hread
      · rw [if_neg hregular] at hread
        obtain ⟨bytes, t₂, hbytes, hreturn⟩ := Run.bind_eq_ok.1 hread
        obtain ⟨-, rfl⟩ := Tree.reading_eq_ok.1 (Run.mapError_eq_ok.1 hbytes)
        cases hreturn
        exact ⟨rfl, (fun hnone => by cases hnone), fun _ => ⟨m.identity, by rw [hm, ← hfile]⟩⟩
  · rw [Run.bind_of_ok (Run.attempt_of hrun)] at h
    dsimp only at h
    split at h
    · cases h
      exact ⟨rfl, fun _ => hm, fun hne => absurd rfl hne⟩
    · cases h

/-- What discovery has found of a target. -/
structure TargetFits (t : Tree) (dir : Location) (entry : InventoryEntry) : Prop where
  parents : ∀ names, names ≠ [] → names <+: entry.path.segments.dropLast → t.Free (dir ++ names)
  absent : entry.filesystem = none → t.metadata (dir ++ entry.path.segments) = none
  present : entry.filesystem ≠ none →
    ∃ identity, t.metadata (dir ++ entry.path.segments) = some ⟨.file, identity⟩

/-- A discovered entry fits the tree, which is left alone. It has passed the check of its
directories, and its target is a file or missing. -/
theorem discoverEntry_tree {access : AccessPolicy Tree ε} (hgrants : access.Grants)
    {identities identities' : OrdMap FileIdentity FragmentPath} {d : DiscoveredFragment}
    {entry : InventoryEntry}
    (h : discoverEntry (treeFilesystem cwd) access root origin identities d t =
      (.ok (entry, identities'), t')) : t' = t ∧ TargetFits t root.directory entry := by
  have hpath := (discoverEntry_isEntry h).path
  unfold discoverEntry at h
  obtain ⟨_, t₁, hparents, h₁⟩ := Run.bind_eq_ok.1 h
  obtain ⟨rfl, hfree⟩ := validateParents_tree (Run.mapError_eq_ok.1 hparents)
  obtain ⟨_, t₂, hdocument, h₂⟩ := Run.bind_eq_ok.1 h₁
  obtain ⟨-, rfl⟩ := operation_eq_ok.1 hdocument
  obtain ⟨input, t₃, hinput, h₃⟩ := Run.bind_eq_ok.1 h₂
  obtain ⟨t₄, hgrant, hread⟩ := flatten_around_eq_ok.1 hinput
  rw [hgrants] at hgrant
  cases hgrant
  obtain ⟨rfl, habsent, hpresent⟩ := readOptionalTarget_tree hread
  rw [← hpath] at hfree habsent hpresent
  cases input with
  | none =>
    cases h₃
    exact ⟨rfl, hfree, fun _ => habsent rfl, fun hne => absurd rfl hne⟩
  | some input =>
    obtain ⟨source, t₅, haccept, h₄⟩ := Run.bind_eq_ok.1 h₃
    obtain ⟨-, rfl⟩ := operation_eq_ok.1 haccept
    cases h₄
    exact ⟨rfl, hfree, (fun hnone => by cases hnone), fun _ => hpresent (by simp)⟩

/-- So do all discovered entries, since each of them is discovered in the same tree. The induction
is on the fragments. -/
theorem discoverEntries_tree {access : AccessPolicy Tree ε} (hgrants : access.Grants)
    {identities : OrdMap FileIdentity FragmentPath} {ds : List DiscoveredFragment}
    {entries : List InventoryEntry}
    (h : discoverEntries (treeFilesystem cwd) access root origin identities ds t =
      (.ok entries, t')) : t' = t ∧ ∀ entry ∈ entries, TargetFits t root.directory entry := by
  induction ds generalizing identities entries t with
  | nil =>
    cases h
    exact ⟨rfl, by simp⟩
  | cons d ds ih =>
    obtain ⟨⟨entry, identities'⟩, t₁, hentry, h₁⟩ := Run.bind_eq_ok.1 h
    obtain ⟨rfl, hfits⟩ := discoverEntry_tree hgrants hentry
    obtain ⟨entries', t₂, hentries, h₂⟩ := Run.bind_eq_ok.1 h₁
    cases h₂
    obtain ⟨rfl, hall⟩ := ih hentries
    exact ⟨rfl, List.forall_mem_cons.2 ⟨hfits, hall⟩⟩

/-- What discovery has found of the targets and of the document. It is what the discovery of the
inventory has checked. -/
structure Fits (t : Tree) (cwd : Location) (documentPath : Path) (inventory : Inventory Location) :
    Prop where
  root : t.IsDirectory inventory.sourceRoot.directory
  targets : ∀ entry ∈ inventory.entries, TargetFits t inventory.sourceRoot.directory entry
  prefixFree : PrefixFree (inventory.entries.map InventoryEntry.path)
  sorted : InPathOrder inventory.entries
  document : ∃ location identity,
    t.walk (documentPath.start cwd) documentPath.components = .ok location ∧
      t.metadata location = some ⟨.file, identity⟩

/-- An opened source root is a directory. This is what opening it has checked. -/
theorem openSourceRoot_tree {path : Path}
    (h : Inventory.openSourceRoot (treeFilesystem cwd) path t = (.ok root, t')) :
    t' = t ∧ t.IsDirectory root.directory := by
  obtain ⟨dir, t₁, hopen, hreturn⟩ := Run.bind_eq_ok.1 (Run.mapError_eq_ok.1 h)
  cases hreturn
  dsimp only [treeFilesystem] at hopen
  obtain ⟨hopened, rfl⟩ := Tree.reading_eq_ok.1 hopen
  obtain ⟨_, -, hopened⟩ := Except.bind_eq_ok.1 hopened
  obtain ⟨⟨location, metadata⟩, hlookup, hdir⟩ := Except.bind_eq_ok.1 hopened
  obtain ⟨_, htype, hreturn⟩ := Except.bind_eq_ok.1 hdir
  cases hreturn
  refine ⟨rfl, ?_⟩
  rw [Tree.IsDirectory, (Tree.walk_of_lookup hlookup).2, Option.map_some, require_eq_ok.1 htype]

/-- A document that was read is a file at the end of its path. Its content could be read, so it is
no directory. -/
theorem readDocument_tree {path : Path} {input : ExistingInput}
    (h : readDocument (treeFilesystem cwd) path t = (.ok input, t')) :
    t' = t ∧ ∃ location identity, t.walk (path.start cwd) path.components = .ok location ∧
      t.metadata location = some ⟨.file, identity⟩ := by
  obtain ⟨file, t₁, hopen, h₁⟩ := Run.bind_eq_ok.1 h
  obtain ⟨hlookup, rfl⟩ := Tree.reading_eq_ok.1 (Run.mapError_eq_ok.1 hopen)
  obtain ⟨metadata, t₂, hmetadata, h₂⟩ := Run.bind_eq_ok.1 h₁
  obtain ⟨hm, rfl⟩ := Tree.reading_eq_ok.1 (Run.mapError_eq_ok.1 hmetadata)
  obtain ⟨bytes, t₃, hread, h₃⟩ := Run.bind_eq_ok.1 h₂
  obtain ⟨hbytes, rfl⟩ := Tree.reading_eq_ok.1 (Run.mapError_eq_ok.1 hread)
  cases h₃
  cases hfound : t'.lookup (path.start cwd) path.components with
  | error e =>
    rw [hfound] at hlookup
    cases hlookup
  | ok found =>
    rw [hfound] at hlookup
    cases hlookup
    rw [hm] at hbytes
    obtain ⟨_, hm', hregular⟩ := Except.bind_eq_ok.1 hbytes
    cases hm'
    obtain ⟨_, htype, -⟩ := Except.bind_eq_ok.1 hregular
    refine ⟨rfl, found.1, metadata.identity, (Tree.walk_of_lookup hfound).1, ?_⟩
    rw [okOr_eq_ok.1 hm, ← require_eq_ok.1 htype]

/-- What is discovered fits the tree, and the tree is left alone. Accesses are granted here, so they
change nothing either. -/
theorem discoverForDocument_tree {access : AccessPolicy Tree ε} (hgrants : access.Grants)
    {sourceRoot documentPath : Path} {inventory : Inventory Location}
    (h : Inventory.discoverForDocument (treeFilesystem cwd) sourceRoot documentPath access t =
      (.ok inventory, t')) : t' = t ∧ Fits t cwd documentPath inventory := by
  obtain ⟨root, t₁, hroot, h₁⟩ := Run.bind_eq_ok.1 h
  obtain ⟨rfl, hdir⟩ := openSourceRoot_tree (Run.mapError_eq_ok.1 hroot)
  obtain ⟨input, t₂, hinput, h₂⟩ := Run.bind_eq_ok.1 h₁
  obtain ⟨t₃, hgrant, hread⟩ := flatten_around_eq_ok.1 hinput
  rw [hgrants] at hgrant
  cases hgrant
  obtain ⟨rfl, hdocument⟩ := readDocument_tree hread
  obtain ⟨ds, hds⟩ := exists_discovers h₂
  obtain ⟨document, ds', -, -, hroot', -, hentries⟩ := discoverInner_eq_ok.1 h₂
  obtain ⟨rfl, hfits⟩ := discoverEntries_tree hgrants hentries
  obtain ⟨_, -, hdiscovered⟩ := hds.document
  refine ⟨rfl, ?_, ?_, ?_, hds.sorted, hdocument⟩
  · rw [hroot']
    exact hdir
  · rw [hroot']
    exact hfits
  · rw [hds.map_path]
    exact hdiscovered.prefixFree

end

/-! ## One output -/

/-- What a tree has become when the outputs of some paths were written beneath a directory. What is
new is one of these outputs, or a directory above one. -/
structure Grown (t₀ : Tree) (dir : Location) (written : List FragmentPath) (t : Tree) : Prop where
  extends_ : t₀.Extends t
  new : t₀.New t fun location metadata =>
    (metadata.fileType = .directory ∧ ∃ path ∈ written, ∃ names,
      names <+: path.segments.dropLast ∧ location = dir ++ names) ∨
    ∃ path ∈ written, location = dir ++ path.segments

/-- Before anything is written the tree has grown by nothing. -/
theorem Grown.refl (t : Tree) (dir : Location) : Grown t dir [] t :=
  ⟨.refl t, fun _ _ hm => .inl hm⟩

section
variable {ε : Type} {cwd : Location} {t₀ t : Tree} {root : SourceRoot Location}
  {entries : List InventoryEntry} {written : List FragmentPath} {entry : InventoryEntry}

/-- A path beneath another one has it among its parents. -/
theorem FragmentPath.isAncestor_of_dropLast {path other : FragmentPath}
    (h : path.segments <+: other.segments.dropLast) : path.IsAncestor other := by
  refine ⟨h.trans (List.dropLast_prefix _), fun heq => ?_⟩
  have hlength := h.length_le
  have hne := List.length_pos_iff.2 other.segments_ne_nil
  rw [heq, List.length_dropLast] at hlength
  omega

/-- What is written has not taken the directories of another target. A new file on the way would be
a target above this one. -/
theorem Grown.parents_free (h : Grown t₀ root.directory written t)
    (hroot : t₀.IsDirectory root.directory) (hfits : TargetFits t₀ root.directory entry)
    (hfree : ∀ path ∈ written, ¬ path.IsAncestor entry.path) {names : List Str}
    (hnames : names <+: entry.path.segments.dropLast) : t.Free (root.directory ++ names) := by
  by_cases hnil : names = []
  · rw [hnil, List.append_nil]
    exact .inr (h.extends_.isDirectory hroot)
  rcases hfits.parents names hnil hnames with hnone | hdir
  · rw [Tree.Free, Option.eq_none_iff_forall_ne_some, or_iff_not_imp_left]
    intro hsome
    push Not at hsome
    obtain ⟨m, hm⟩ := hsome
    rcases h.new _ _ hm with hm' | ⟨htype, -⟩ | ⟨path, hpath, heq⟩
    · rw [hnone] at hm'
      cases hm'
    · rw [Tree.IsDirectory, hm, Option.map_some, htype]
    · rw [List.append_cancel_left heq] at hnames
      exact absurd (FragmentPath.isAncestor_of_dropLast hnames) (hfree path hpath)
  · exact .inr (h.extends_.isDirectory hdir)

/-- What is written has not taken another target. What is new is an output or a directory above one,
and no target lies above another. -/
theorem Grown.target_absent (h : Grown t₀ root.directory written t)
    (hfits : TargetFits t₀ root.directory entry) (habsent : entry.filesystem = none)
    (hfree : ∀ path ∈ written, ¬ entry.path.IsAncestor path) (hnew : entry.path ∉ written) :
    t.metadata (root.directory ++ entry.path.segments) = none := by
  rw [Option.eq_none_iff_forall_ne_some]
  intro m hm
  rcases h.new _ _ hm with hm' | ⟨-, path, hpath, names, hnames, heq⟩ | ⟨path, hpath, heq⟩
  · rw [hfits.absent habsent] at hm'
    cases hm'
  · rw [← List.append_cancel_left heq] at hnames
    exact hfree path hpath (FragmentPath.isAncestor_of_dropLast hnames)
  · rw [← FragmentPath.segments_injective (List.append_cancel_left heq)] at hpath
    exact hnew hpath

/-- The search for an alias of a new file finds none, because every location has its own file. The
induction is on the candidates, and a probe finds another file or nothing. -/
theorem findAlias_tree {path : FragmentPath} {metadata : Metadata}
    (hm : t.metadata (root.directory ++ path.segments) = some metadata)
    (candidates : List FragmentPath) :
    root.findAlias (treeFilesystem cwd) path metadata.identity candidates t = (.ok none, t) := by
  induction candidates with
  | nil => rfl
  | cons candidate candidates ih =>
    unfold SourceRoot.findAlias
    split
    · next hne =>
      have hprobe : ∃ r, root.targetIdentity (treeFilesystem cwd) candidate t = (r, t) ∧
          r.toOption ≠ some metadata.identity := by
        have hcases : (∃ m, root.metadata (treeFilesystem cwd) (relativePath candidate) t =
              (.ok m, t) ∧ t.metadata (root.directory ++ candidate.segments) = some m) ∨
            ∃ e, root.metadata (treeFilesystem cwd) (relativePath candidate) t = (.error e, t) ∧
              t.metadata (root.directory ++ candidate.segments) = none :=
          metadata_tree root (FragmentPath.plainNames candidate)
        rcases hcases with ⟨m, hrun, hm'⟩ | ⟨e, hrun, -⟩
        · refine ⟨.ok m.identity, ?_, fun heq => ?_⟩
          · rw [SourceRoot.targetIdentity, Run.bind_of_ok hrun]
            rfl
          · have hlocation := t.distinct _ _ _ _ hm' hm (Option.some.inj heq)
            exact hne (FragmentPath.segments_injective (List.append_cancel_left hlocation))
        · refine ⟨.error e, ?_, fun heq => by cases heq⟩
          rw [SourceRoot.targetIdentity, Run.bind_of_error hrun]
      obtain ⟨r, hrun, hr⟩ := hprobe
      rw [Run.bind_of_ok (Run.attempt_of hrun), if_neg hr]
      exact ih
    · exact ih

/-- A target has a directory above it exactly if its path has more than one segment. -/
theorem nonemptyParent_relativePath (path : FragmentPath) : nonemptyParent (relativePath path) =
    if path.segments.dropLast = [] then none else some ⟨false, path.segments.dropLast⟩ := by
  have hparent : (relativePath path).parent = some ⟨false, path.segments.dropLast⟩ :=
    if_neg path.segments_ne_nil
  rw [nonemptyParent, hparent, Option.filter_some]
  by_cases hnil : path.segments.dropLast = []
  · simp [hnil]
  · simp [hnil]

/-- The directories of an output are made. Nothing but directories stands on the way. What is new in
the tree are these directories. -/
theorem createParent_tree (hroot : t.IsDirectory root.directory) (completed : List FragmentPath)
    {output : ExternalOutput}
    (h : ∀ names, names <+: output.path.segments.dropLast → t.Free (root.directory ++ names)) :
    ∃ t', @createParent Tree ε (realFilesystem (treeFilesystem cwd) root) completed output t =
        (.ok (), t') ∧ t.Extends t' ∧
      t'.IsDirectory (root.directory ++ output.path.segments.dropLast) ∧
      t.New t' fun location metadata => metadata.fileType = .directory ∧ ∃ names,
        names <+: output.path.segments.dropLast ∧ location = root.directory ++ names := by
  obtain ⟨t', hrun, hextends, hdir, hnew⟩ :=
    Tree.createDirs_ok (FragmentPath.plainParents output.path) hroot h
  unfold createParent
  rw [nonemptyParent_relativePath]
  by_cases hnil : output.path.segments.dropLast = []
  · rw [if_pos hnil]
    refine ⟨t, rfl, .refl t, ?_, fun _ _ hm => .inl hm⟩
    rwa [hnil, List.append_nil]
  · rw [if_neg hnil]
    refine ⟨t', ?_, hextends, hdir, hnew⟩
    exact Run.mapError_eq_ok.2 hrun

/-- A target is created, and it is no other target. There are no hard links in a plain tree, so the
new file has one name. -/
theorem createTarget_tree {path : FragmentPath}
    (hdir : t.IsDirectory (root.directory ++ path.segments).dropLast)
    (hnone : t.metadata (root.directory ++ path.segments) = none) (bytes : Bytes)
    (absentTargets : List FragmentPath) :
    root.createTarget (treeFilesystem cwd) path bytes absentTargets t = (.ok none,
      (t.add (root.directory ++ path.segments) .file hdir hnone).overwrite
        (root.directory ++ path.segments) bytes) := by
  have hopen := Tree.createNew_ok (FragmentPath.plainNames path) path.segments_ne_nil hdir hnone
  generalize hadd : t.add (root.directory ++ path.segments) .file hdir hnone = t₁ at hopen
  have hm : t₁.metadata (root.directory ++ path.segments) = some ⟨.file, ⟨0, t.next⟩⟩ := by
    rw [← hadd]
    exact Function.update_self _ _ _
  have hmetadata : (treeFilesystem cwd).fileMetadata (root.directory ++ path.segments) t₁ =
      (.ok ⟨.file, ⟨0, t.next⟩⟩, t₁) := by
    dsimp only [treeFilesystem]
    exact Tree.reading_eq_ok.2 ⟨okOr_eq_ok.2 hm, rfl⟩
  have hwrite : (treeFilesystem cwd).writeAll (root.directory ++ path.segments) bytes t₁ =
      (.ok (), t₁.overwrite (root.directory ++ path.segments) bytes) := rfl
  have halias := @findAlias_tree cwd (t₁.overwrite (root.directory ++ path.segments) bytes) root path
    ⟨.file, ⟨0, t.next⟩⟩ hm absentTargets
  rw [SourceRoot.createTarget, Run.bind_of_ok (show (treeFilesystem cwd).dirOpenWith root.directory
    (relativePath path) ⟨true, false, true, false⟩ t = _ from hopen), Run.bind_of_ok hmetadata,
    Run.bind_of_ok hwrite]
  exact halias

/-- A target that is there is written over. -/
theorem replaceTarget_tree {path : FragmentPath} {identity : FileIdentity}
    (hm : t.metadata (root.directory ++ path.segments) = some ⟨.file, identity⟩) (bytes : Bytes) :
    root.replaceTarget (treeFilesystem cwd) path bytes t = (.ok (),
      (t.setContent (root.directory ++ path.segments) []).overwrite
        (root.directory ++ path.segments) bytes) := by
  have hopen := Tree.truncate_ok
    (Tree.walk_of_some (FragmentPath.plainNames path) (by rw [hm]; simp)) hm
  rw [SourceRoot.replaceTarget, Run.bind_of_ok (show (treeFilesystem cwd).dirOpenWith root.directory
    (relativePath path) ⟨true, true, false, true⟩ t = _ from hopen)]
  rfl

/-- An output is written over its file, or to a new file. The entry tells which of the two it is,
and the tree agrees with it. -/
theorem writeExternal_tree (hdir : t.IsDirectory (root.directory ++ entry.path.segments.dropLast))
    (habsent : entry.filesystem = none →
      t.metadata (root.directory ++ entry.path.segments) = none)
    (hpresent : entry.filesystem ≠ none → ∃ identity,
      t.metadata (root.directory ++ entry.path.segments) = some ⟨.file, identity⟩)
    (absentTargets : List FragmentPath) :
    ∃ t', (realFilesystem (treeFilesystem cwd) root).writeExternal entry.path
        (externalOutput entry).bytes (externalOutput entry).write absentTargets t =
          (.ok none, t') ∧ t.Extends t' ∧
      t.New t' fun location _ => location = root.directory ++ entry.path.segments := by
  cases hfile : entry.filesystem with
  | none =>
    have hnone := habsent hfile
    have hdir' : t.IsDirectory (root.directory ++ entry.path.segments).dropLast := by
      rwa [List.dropLast_append_of_ne_nil entry.path.segments_ne_nil]
    have hwrite : (externalOutput entry).write = .createNew := if_pos (by rw [hfile]; rfl)
    rw [hwrite]
    refine ⟨_, createTarget_tree hdir' hnone _ absentTargets, Tree.add_extends hdir' hnone,
      fun location m hm => ?_⟩
    exact (Tree.metadata_add hdir' hnone hm).imp_right fun heq => heq.1
  | some source =>
    obtain ⟨identity, hm⟩ := hpresent (by rw [hfile]; simp)
    have hwrite : (externalOutput entry).write = .createOrTruncate :=
      if_neg (by rw [hfile]; simp)
    rw [hwrite]
    exact ⟨_, Run.bind_of_ok (replaceTarget_tree hm _), (fun _ _ hm => hm), fun _ _ hm => .inl hm⟩

/-- The next output can be written, and the tree has grown by it. None of the targets lies above
another one, so neither its directories nor its file are taken. -/
theorem commitExternal_grown {access : AccessPolicy Tree ε} (hgrants : access.Grants)
    (h : Grown t₀ root.directory written t) (hroot : t₀.IsDirectory root.directory)
    (hfits : TargetFits t₀ root.directory entry)
    (hfree : ∀ path ∈ written, ¬ path.IsAncestor entry.path ∧ ¬ entry.path.IsAncestor path)
    (hnew : entry.path ∉ written) (absentTargets completed : List FragmentPath) :
    ∃ t', commitExternal access (realFilesystem (treeFilesystem cwd) root) absentTargets completed
        (externalOutput entry) t = (.ok (completed ++ [entry.path]), t') ∧
      Grown t₀ root.directory (written ++ [entry.path]) t' := by
  obtain ⟨t₁, hparent, hextends₁, hdir, hnew₁⟩ := @createParent_tree ε cwd t root
    (h.extends_.isDirectory hroot) completed (externalOutput entry)
    fun names hnames => h.parents_free hroot hfits (fun path hpath => (hfree path hpath).1) hnames
  have htarget : entry.filesystem = none →
      t₁.metadata (root.directory ++ entry.path.segments) = none := by
    intro habsent
    have hnone := h.target_absent hfits habsent (fun path hpath => (hfree path hpath).2) hnew
    rw [Option.eq_none_iff_forall_ne_some]
    intro m hm
    rcases hnew₁ _ _ hm with hm | ⟨-, names, hnames, heq⟩
    · rw [hnone] at hm
      cases hm
    · rw [← List.append_cancel_left heq] at hnames
      exact (FragmentPath.isAncestor_of_dropLast hnames).2 rfl
  obtain ⟨t₂, hwrite, hextends₂, hnew₂⟩ := @writeExternal_tree cwd t₁ root entry hdir htarget
    (fun hpresent => (hfits.present hpresent).imp fun identity hm =>
      hextends₁ _ _ (h.extends_ _ _ hm)) absentTargets
  refine ⟨t₂, ?_, (h.extends_.trans hextends₁).trans hextends₂, fun location m hm => ?_⟩
  · rw [commitExternal_eq, Run.bind_of_ok hparent]
    exact Run.bind_of_ok (Run.mapError_eq_ok.2
      (flatten_around_eq_ok.2 ⟨t₁, hgrants _ _ _, hwrite⟩))
  · rcases hnew₂ _ _ hm with hm | heq
    · rcases hnew₁ _ _ hm with hm | ⟨htype, names, hnames, heq⟩
      · rcases h.new _ _ hm with hm | ⟨htype, path, hpath, hnames⟩ | ⟨path, hpath, heq⟩
        · exact .inl hm
        · exact .inr (.inl ⟨htype, path, List.mem_append_left _ hpath, hnames⟩)
        · exact .inr (.inr ⟨path, List.mem_append_left _ hpath, heq⟩)
      · exact .inr (.inl ⟨htype, entry.path, by simp, names, hnames, heq⟩)
    · exact .inr (.inr ⟨entry.path, by simp, heq⟩)

/-! ## The commit -/

/-- The outputs of targets that fit can be written one behind another. The induction is on the
entries, with those that were written before. This is the invariant of the commit loop. -/
theorem commitExternals_grown {access : AccessPolicy Tree ε} (hgrants : access.Grants)
    (h : Grown t₀ root.directory written t) (hroot : t₀.IsDirectory root.directory)
    (hfits : ∀ entry ∈ entries, TargetFits t₀ root.directory entry)
    (hnodup : (written ++ entries.map InventoryEntry.path).Nodup)
    (hfree : ∀ path ∈ written ++ entries.map InventoryEntry.path,
      ∀ other ∈ written ++ entries.map InventoryEntry.path, ¬ path.IsAncestor other)
    (absentTargets completed : List FragmentPath) :
    ∃ paths t', commitExternals access (realFilesystem (treeFilesystem cwd) root) absentTargets
        completed (entries.map externalOutput) t = (.ok paths, t') ∧
      Grown t₀ root.directory (written ++ entries.map InventoryEntry.path) t' := by
  induction entries generalizing written completed t with
  | nil =>
    refine ⟨completed, t, rfl, ?_⟩
    rwa [List.map_nil, List.append_nil]
  | cons entry entries ih =>
    rw [List.forall_mem_cons] at hfits
    have hsplit : written ++ (entry :: entries).map InventoryEntry.path =
        written ++ [entry.path] ++ entries.map InventoryEntry.path := by simp
    have hentry : entry.path ∈ written ++ (entry :: entries).map InventoryEntry.path := by simp
    have hwritten : ∀ path ∈ written,
        path ∈ written ++ (entry :: entries).map InventoryEntry.path :=
      fun path hpath => List.mem_append_left _ hpath
    have hnew : entry.path ∉ written := fun hmem =>
      List.disjoint_of_nodup_append hnodup hmem (by simp)
    obtain ⟨t₁, hone, hgrown₁⟩ := commitExternal_grown hgrants h hroot hfits.1
      (fun path hpath => ⟨hfree _ (hwritten path hpath) _ hentry,
        hfree _ hentry _ (hwritten path hpath)⟩) hnew absentTargets completed
    rw [hsplit] at hnodup hfree ⊢
    obtain ⟨paths, t₂, hrest, hgrown₂⟩ := ih hgrown₁ hfits.2 hnodup hfree (completed ++ [entry.path])
    exact ⟨paths, t₂, (Run.bind_of_ok hone).trans hrest, hgrown₂⟩

/-- The document, which is where it was, can be written. What was written since discovery has not
moved it. -/
theorem commitDocument_tree {access : AccessPolicy Tree ε} (hgrants : access.Grants)
    {documentPath : Path} {location : Location} {identity : FileIdentity}
    (hwalk : t.walk (documentPath.start cwd) documentPath.components = .ok location)
    (hm : t.metadata location = some ⟨.file, identity⟩) (completed : List FragmentPath)
    (output : Option Bytes) :
    ∃ t', commitDocument access (realFilesystem (treeFilesystem cwd) root) completed
      (output.map fun bytes => ⟨documentPath, bytes⟩) t = (.ok (), t') := by
  cases output with
  | none => exact ⟨t, rfl⟩
  | some bytes =>
    have hwrite : (treeFilesystem cwd).write documentPath bytes t =
        (.ok (), (t.setContent location []).overwrite location bytes) :=
      Run.bind_of_ok (Tree.truncate_ok hwalk hm)
    exact ⟨_, Run.mapError_eq_ok.2 (flatten_around_eq_ok.2 ⟨t, hgrants _ _ _, hwrite⟩)⟩

end

section
variable [Sha256] {ε : Type} {cwd : Location} {access : AccessPolicy Tree ε} {request : Request}
  {s t : Tree} {b : Batch Location}

/-- What a command commits on a plain tree is committed, and the command returns its report. The
entries fit the tree by the discovery, and their paths are free of each other by its checks. -/
theorem Prepares.commit_ok (hgrants : access.Grants)
    (h : Prepares (treeFilesystem cwd) access request s b t) :
    (b.commit (realFilesystem (treeFilesystem cwd)) access t).1 = .ok () ∧
      (executeWithAccess (treeFilesystem cwd) access request s).1 = .ok b.report := by
  obtain ⟨rfl, hfits⟩ := discoverForDocument_tree hgrants h.discovered
  obtain ⟨-, hselected⟩ := (Inventory.select_eq_ok hfits.sorted).1 h.selected
  have hsub : b.selected.Sublist b.inventory.entries := hselected ▸ chosen_sublist _ _
  obtain ⟨-, hprepare, -⟩ := prepareOutputs_eq_ok.1 h.prepared
  have hprepared := prepare_eq_ok hprepare
  have hextracted : ∀ entry ∈ b.prepared.extracted, entry ∈ b.inventory.entries :=
    fun entry hentry => hsub.subset (hprepared.mem_extracted.1 hentry).1
  have hsorted := hprepared.extracted_sorted (hfits.sorted.sublist (hsub.map _))
  have hpaths : (b.prepared.extracted.map externalOutput).map ExternalOutput.path =
      b.prepared.extracted.map InventoryEntry.path := by
    rw [List.map_map]
    rfl
  have hfree : ∀ path ∈ b.prepared.extracted.map InventoryEntry.path,
      ∀ other ∈ b.prepared.extracted.map InventoryEntry.path, ¬ path.IsAncestor other := by
    intro path hpath other hother
    exact prefixFree_iff.1 hfits.prefixFree path (List.map_subset _ hextracted hpath)
      other (List.map_subset _ hextracted hother)
  obtain ⟨paths, t₁, hexternals, hgrown⟩ := @commitExternals_grown ε cwd t t
    b.inventory.sourceRoot b.prepared.extracted [] access hgrants (.refl t _) hfits.root
    (fun entry hentry => hfits.targets entry (hextracted entry hentry))
    (by rw [List.nil_append, ← hpaths]; exact hsorted.nodup) hfree
    (absentTargets b.inventory.entries) []
  obtain ⟨location, identity, hwalk, hm⟩ := hfits.document
  obtain ⟨t₂, hdocument⟩ := @commitDocument_tree ε cwd t₁ b.inventory.sourceRoot access hgrants
    b.paths.document location identity (hgrown.extends_.walk hwalk) (hgrown.extends_ _ _ hm) paths
    b.output
  have hcommit : b.commit (realFilesystem (treeFilesystem cwd)) access t = (.ok (), t₂) := by
    have horder : validateOrder b.external = .ok () := validateOrder_eq_ok.2 hsorted
    refine Run.mapError_eq_ok.2 ?_
    exact (Run.bind_of_ok (operation_of_ok horder)).trans
      ((Run.bind_of_ok hexternals).trans hdocument)
  refine ⟨by rw [hcommit], ?_⟩
  rw [executeWithAccess, h.executeUsing_eq]
  split
  · rfl
  · rw [Run.bind_of_ok hcommit]
    rfl

end

/-! ## A sample -/

/-- A filesystem with nothing but its root. -/
def bareTree : Tree where
  metadata := Function.update (fun _ => none) [] (some ⟨.directory, ⟨0, 0⟩⟩)
  content _ := []
  next := 1
  root := ⟨⟨0, 0⟩, Function.update_self _ _ _⟩
  parent := by
    intro location hne hm
    rw [Function.update_of_ne hne] at hm
    exact absurd rfl hm
  distinct := by
    intro a b m m' hm hm' _
    by_cases ha : a = [] <;> by_cases hb : b = []
    · rw [ha, hb]
    · rw [Function.update_of_ne hb] at hm'
      cases hm'
    · rw [Function.update_of_ne ha] at hm
      cases hm
    · rw [Function.update_of_ne ha] at hm
      cases hm
  fresh := by
    intro location m hm
    by_cases hnil : location = []
    · rw [hnil, Function.update_self] at hm
      cases hm
      exact Nat.zero_lt_one
    · rw [Function.update_of_ne hnil] at hm
      cases hm

/-- The name of the sample document, with the extension that every document has. -/
def sampleDocumentName : Str := ['d', '.', 'a', 'u', 'd', 'u', 'l', 'u', 's', '4']

/-- A filesystem with a document in its root. -/
def sampleTree : Tree :=
  (bareTree.add [sampleDocumentName] .file (by decide) rfl).setContent [sampleDocumentName]
    fragmentBuffer

/-- The extraction of all fragments of the document. -/
def sampleRequest : Request where
  cwd := ⟨true, []⟩
  document := ⟨false, [sampleDocumentName]⟩
  sourceRoot := none
  selectors := []
  mode := .mutate (.extract false)

/-- The document has one fragment, which has no file. -/
def sampleTreeInventory : Inventory Location where
  sourceRoot := ⟨⟨true, []⟩, []⟩
  documentBytes := fragmentBuffer
  entries := [⟨1, samplePath, (emptyFragment samplePath).embedded, none, ⟨true, [['p']]⟩, none⟩]

set_option maxRecDepth 4000 in
/-- What is discovered in the sample tree. -/
theorem sampleTreeInventory_discovered :
    Inventory.discoverForDocument (treeFilesystem []) ⟨true, []⟩ ⟨true, [sampleDocumentName]⟩
      AccessPolicy.direct sampleTree = (.ok sampleTreeInventory, sampleTree) := rfl

set_option maxRecDepth 4000 in
/-- An extraction of all fragments of the sample extracts its one fragment, and makes a new document
with the baseline. -/
theorem sampleTreeInventory_prepared : ∃ prepared bytes,
    @prepareOutputs lfDigest fragmentBuffer (@classifyEntries lfDigest sampleTreeInventory.entries)
      (selectionKind []) (.extract false) = .ok (prepared, some bytes) ∧
    prepared.extracted = sampleTreeInventory.entries := ⟨_, _, rfl, rfl⟩

/-- The file of the fragment is created, and the document is written. On the tree of the sample
nothing stands in the way of the file. -/
theorem Prepares.commit_ok_sample : ∃ b : Batch Location,
    b.prepared.extracted = sampleTreeInventory.entries ∧ b.output.isSome ∧
    (b.commit (realFilesystem (treeFilesystem [])) AccessPolicy.direct sampleTree).1 = .ok () ∧
    (@executeWithAccess lfDigest _ _ _ _ (treeFilesystem []) AccessPolicy.direct sampleRequest
      sampleTree).1 = .ok b.report := by
  obtain ⟨prepared, bytes, hprepared, hextracted⟩ := sampleTreeInventory_prepared
  have hprepares : @Prepares lfDigest _ _ _ _ (treeFilesystem []) AccessPolicy.direct sampleRequest
      sampleTree ⟨⟨⟨true, [sampleDocumentName]⟩, ⟨true, []⟩⟩, sampleTreeInventory,
        sampleTreeInventory.entries, .extract false, prepared, some bytes⟩ sampleTree :=
    @Prepares.mk lfDigest _ _ _ _ _ _ _ _ _ _ rfl sampleTreeInventory_discovered rfl rfl hprepared
  exact ⟨_, hextracted, rfl, @Prepares.commit_ok lfDigest _ _ _ _ _ _ _ (fun _ _ _ => rfl) hprepares⟩

end Zwirn.Sync
