import Zwirn.Sync.Inventory

/-!
# Fragment paths below a directory

A fragment path is used as the path that its text is for the operating system. Its components are
the segments, so that it stays below the directory from which it is followed, and the parents that
discovery checks are the paths of the segments in front (`FragmentPath.tryFrom_exact`).
-/

namespace Zwirn.Sync

open Lib Fragment

/-! ## Texts as paths -/

/-- The path that a text is: its components stand between the separators. Empty components are
dropped, and so is a `.` that does not begin a relative path. -/
def Path.ofText (text : Str) : Path :=
  let components := text.splitOn '/'
  let absolute := text.head? = some '/'
  let first := if ¬ absolute ∧ components.head? = some ['.'] then [['.']] else []
  ⟨absolute, first ++ components.filter fun name => name ≠ [] ∧ name ≠ ['.']⟩

example : Path.ofText ['/', 'a', '/', '/', '.', '/', 'b'] = ⟨true, [['a'], ['b']]⟩ := by decide

/-- Follows a path from a directory, component by component. -/
def Path.follow {m : Type → Type} [Monad m] {D : Type} (parent : D → m D) (child : D → Str → m D)
    (path : Path) (directory : D) : m D :=
  path.components.foldlM (fun directory name =>
    if name = ['.'] then pure directory
    else if name = ['.', '.'] then parent directory
    else child directory name) directory

/-- Names that are no special ones lead down, each by one step. The induction is on the names. -/
theorem Path.follow_plain {m : Type → Type} [Monad m] {D : Type} (parent : D → m D)
    (child : D → Str → m D) {names : List Str} (h : ∀ name ∈ names, name ≠ ['.'] ∧ name ≠ ['.', '.'])
    (directory : D) :
    Path.follow parent child ⟨false, names⟩ directory = names.foldlM child directory := by
  unfold Path.follow
  dsimp only
  induction names generalizing directory with
  | nil => rfl
  | cons name names ih =>
    rw [List.forall_mem_cons] at h
    rw [List.foldlM_cons, List.foldlM_cons, if_neg h.1.1, if_neg h.1.2]
    exact bind_congr fun directory => ih h.2 directory

/-! ## Fragment paths -/

/-- A fragment path is the path of its text. Its components are the segments, and the text is cut at
the same places. -/
theorem relativePath_eq (path : FragmentPath) : relativePath path = Path.ofText path.value := by
  obtain ⟨hne, hsegments, -⟩ := path.spells
  have habsolute : path.value.head? ≠ some '/' := fun hhead =>
    (hsegments [] (nil_mem_splitOn (.inl hhead))).nonempty rfl
  have hfirst : path.segments.head? ≠ some ['.'] := fun hhead =>
    (hsegments _ (List.mem_of_mem_head? hhead)).not_current rfl
  have hfilter : path.segments.filter (fun name => name ≠ [] ∧ name ≠ ['.']) = path.segments := by
    rw [List.filter_eq_self]
    intro name hname
    simpa using ⟨(hsegments name hname).nonempty, (hsegments name hname).not_current⟩
  rw [FragmentPath.segments] at hfirst hfilter
  unfold relativePath Path.ofText FragmentPath.segments
  dsimp only
  rw [hfilter, if_neg fun h => hfirst h.2]
  simp [habsolute]

/-- A fragment path stays below the path that it is joined to. Its segments are no special names, so
none of them leads up. -/
theorem join_relativePath (base : Path) (path : FragmentPath) :
    base.join (relativePath path) = ⟨base.absolute, base.components ++ path.segments⟩ := by
  have hfilter : path.segments.filter (· ≠ ['.']) = path.segments := by
    rw [List.filter_eq_self]
    intro name hname
    simpa using (path.segments_plain name hname).1
  unfold Path.join relativePath
  split
  · next h =>
    obtain rfl : base = ⟨false, []⟩ := h.resolve_left (by simp)
    rfl
  · rw [hfilter]

/-- The paths of the segments in front of others, from the shortest on. -/
def parentPaths (path : FragmentPath) : List Path :=
  (path.segments.inits.filter fun names => names ≠ [] ∧ names ≠ path.segments).map
    fun names => ⟨false, names⟩

/-- The directories above a target are the proper starts of its segments. -/
theorem mem_parentPaths {path : FragmentPath} {parent : Path} :
    parent ∈ parentPaths path ↔ ∃ names, names <+: path.segments ∧ names ≠ [] ∧
      names ≠ path.segments ∧ parent = ⟨false, names⟩ := by
  rw [parentPaths, List.mem_map]
  refine exists_congr fun names => ?_
  rw [List.mem_filter, List.mem_inits, decide_eq_true_eq, and_assoc, and_assoc,
    eq_comm (a := parent)]

/-- Each parent lies above the next ones. -/
theorem parentPaths_ordered (path : FragmentPath) : (parentPaths path).Pairwise fun a b =>
    a.components <+: b.components ∧ a.components ≠ b.components :=
  List.pairwise_map.2 ((inits_pairwise path.segments).sublist List.filter_sublist)

/-- They are the starts of the segments without the last one, from the outermost directory on. -/
theorem parentPaths_eq (path : FragmentPath) :
    parentPaths path = (path.segments.dropLast.inits.tail).map fun names => ⟨false, names⟩ := by
  rw [parentPaths, filter_inits path.segments_ne_nil]

section
variable {σ δ φ : Type} (fs : FileSystem σ δ φ) (root : SourceRoot δ) (path : FragmentPath)

/-- Checks one parent of a fragment. -/
def validateParent (parent : Path) : Run σ InventoryError Unit :=
  (validateOptionalDirectory fs root parent).mapError (.fragmentParent path (root.namedPath parent))

/-- The loop over the directories checks each of them by itself. The induction is on the segments
that are left, with the directory that was reached generalized. -/
theorem validateParentsFrom_eq (parent segments : List Str) :
    validateParentsFrom fs root path parent segments =
      forM (segments.inits.tail.map fun names => (⟨false, parent ++ names⟩ : Path))
        (validateParent fs root path) := by
  induction segments generalizing parent with
  | nil => rfl
  | cons segment segments ih =>
    have hpath : (fun names => (⟨false, parent ++ names⟩ : Path)) ∘ (fun names => segment :: names) =
        fun names => ⟨false, parent ++ [segment] ++ names⟩ := by
      funext names
      simp
    rw [validateParentsFrom, ih, List.inits_cons, List.tail_cons, List.map_map, hpath,
      inits_eq_cons segments, List.map_cons, List.forM_cons, List.append_nil]
    rfl

/-- Discovery checks the parents of a fragment, and nothing else, in order. -/
theorem validateParents_eq : validateParents fs root path =
    forM (parentPaths path) (validateParent fs root path) := by
  have hparent : (relativePath path).parent = some ⟨false, path.segments.dropLast⟩ :=
    if_neg path.segments_ne_nil
  rw [validateParents, hparent, parentPaths_eq]
  exact validateParentsFrom_eq fs root path [] path.segments.dropLast

end

/-- The accepted texts are those that segments spell, each in one way only. As a path, such a text
descends by its segments from wherever it is followed or joined to, and its parents that discovery
checks are the strict nonempty beginnings of the segments, in order. -/
theorem FragmentPath.tryFrom_exact (value : Str) :
    ((∃ path, FragmentPath.tryFrom value = .ok path) ↔ ∃ segments, Spells segments value) ∧
    (∀ segments segments', Spells segments value → Spells segments' value → segments' = segments) ∧
    ∀ path, FragmentPath.tryFrom value = .ok path →
      Spells path.segments value ∧
      (∀ other : FragmentPath, other ≠ path → other.segments ≠ path.segments) ∧
      relativePath path = Path.ofText value ∧
      (∀ base : Path, base.join (Path.ofText value) =
        ⟨base.absolute, base.components ++ path.segments⟩) ∧
      (∀ names, names <+: path.segments → ∀ (m : Type → Type) [Monad m] (D : Type)
        (parent : D → m D) (child : D → Str → m D) (directory : D),
        Path.follow parent child ⟨false, names⟩ directory = names.foldlM child directory) ∧
      (∀ parent, parent ∈ parentPaths path ↔ ∃ names, names <+: path.segments ∧ names ≠ [] ∧
        names ≠ path.segments ∧ parent = ⟨false, names⟩) ∧
      (parentPaths path).Pairwise (fun a b => a.components <+: b.components ∧
        a.components ≠ b.components) ∧
      ∀ (σ δ φ : Type) (fs : FileSystem σ δ φ) (root : SourceRoot δ),
        validateParents fs root path = forM (parentPaths path) (validateParent fs root path) := by
  refine ⟨FragmentPath.exists_tryFrom, fun segments segments' h h' => h.unique h', ?_⟩
  intro path hpath
  obtain rfl := FragmentPath.tryFrom_eq_ok.1 hpath
  refine ⟨path.spells, fun other hne heq => hne (FragmentPath.segments_injective heq),
    relativePath_eq path, fun base => ?_, fun names hnames m _ D parent child directory => ?_,
    fun parent => ?_, ?_, fun σ δ φ fs root => validateParents_eq fs root path⟩
  · rw [← relativePath_eq, join_relativePath]
  · exact Path.follow_plain parent child
      (fun name hname => path.segments_plain name (hnames.subset hname)) directory
  · exact mem_parentPaths
  · exact parentPaths_ordered path

end Zwirn.Sync
