import Zwirn.Sync.Settle

/-!
# Separate targets

On a workspace whose targets are separate, what is done at one target leaves which file is at
another. There a command that returns leaves exactly what it has prepared: the extracted fragments
in their files, the document in its own, and every other file as it was (`Prepares.finishes`).
-/

namespace Zwirn.Sync

open Lib Fragment Adls

/-! ## The files at the targets -/

namespace Disk
variable {φ : Type} {d d' : Disk φ} {path : FragmentPath}

/-- The regular file at a target. -/
def file (d : Disk φ) (path : FragmentPath) : Option FileIdentity :=
  match d.target path with
  | some ⟨.file, identity⟩ => some identity
  | _ => none

/-- What the regular file at a target holds. -/
def holds (d : Disk φ) (path : FragmentPath) : Option Bytes := (d.file path).bind d.content

/-- The file of a target is the regular file there. -/
theorem file_eq_some {i : FileIdentity} :
    d.file path = some i ↔ d.target path = some ⟨.file, i⟩ := by
  unfold file
  split
  · next identity h => simp [h]
  · next h => exact iff_of_false (fun h => by cases h) fun hi => h i hi

/-- The file of a target depends on what is there, and on nothing else. -/
theorem file_congr (h : d'.target path = d.target path) : d'.file path = d.file path := by
  rw [file, file, h]

/-- A target with a file holds what the file does, -/
theorem holds_of {i : FileIdentity} (h : d.file path = some i) : d.holds path = d.content i := by
  rw [holds, h]
  rfl

/-- and one without a file holds nothing. -/
theorem holds_of_none (h : d.file path = none) : d.holds path = none := by
  rw [holds, h]
  rfl

/-- The file of a target stays its file while the disk grows. -/
theorem Extends.file (h : d.Extends d') {i : FileIdentity} (hi : d.file path = some i) :
    d'.file path = some i := file_eq_some.2 (h.target _ _ (file_eq_some.1 hi))

/-- What is found is what the file holds. -/
theorem Finds.holds {found : Option CanonicalSource} (h : d.Finds path found) :
    found = none ∧ d.file path = none ∨ ∃ i bytes text source, found = some source ∧
      d.file path = some i ∧ d.content i = some bytes ∧ decode bytes = some text ∧
      CanonicalSource.tryFrom text = .ok source := by
  cases h with
  | absent hnone =>
    refine .inl ⟨rfl, ?_⟩
    rw [Disk.file, hnone]
  | present htarget hcontent htext hsource =>
    exact .inr ⟨_, _, _, _, rfl, file_eq_some.2 htarget, hcontent, htext, hsource⟩

/-- Where the file holds the same, the same is found. What is found is computed from the bytes
alone. -/
theorem Finds.of_holds {found found' : Option CanonicalSource} (h : d.Finds path found)
    (h' : d'.Finds path found') (hholds : d'.holds path = d.holds path) : found' = found := by
  rcases h.holds with ⟨rfl, hfile⟩ | ⟨i, bytes, text, source, rfl, hfile, hcontent, htext, hsource⟩
  · rw [holds_of_none hfile] at hholds
    rcases h'.holds with ⟨rfl, -⟩ | ⟨j, bytes', _, _, -, hfile', hcontent', -, -⟩
    · rfl
    · rw [holds_of hfile', hcontent'] at hholds
      cases hholds
  · rw [holds_of hfile, hcontent] at hholds
    rcases h'.holds with ⟨-, hfile'⟩ | ⟨j, bytes', text', source', rfl, hfile', hcontent', htext',
      hsource'⟩
    · rw [holds_of_none hfile'] at hholds
      cases hholds
    · rw [holds_of hfile', hcontent', Option.some.injEq] at hholds
      rw [hholds, htext, Option.some.injEq] at htext'
      rw [← htext', hsource] at hsource'
      rw [Except.ok.inj hsource']

/-- What was written is found. -/
theorem Finds.of_encoded {found : Option CanonicalSource} {source : CanonicalSource}
    (h : d.Finds path found) (hholds : d.holds path = some (encode source.value)) :
    found = some source := by
  rcases h.holds with ⟨-, hfile⟩ | ⟨i, bytes, text, source', rfl, hfile, hcontent, htext, hsource⟩
  · rw [holds_of_none hfile] at hholds
    cases hholds
  · rw [holds_of hfile, hcontent, Option.some.injEq] at hholds
    rw [hholds, decode_encode, Option.some.injEq] at htext
    rw [← htext, CanonicalSource.tryFrom_value, Except.ok.injEq] at hsource
    rw [hsource]

end Disk

/-! ## Separate targets -/

section
variable {σ δ φ ε : Type} {fs : FileSystem σ δ φ} {access : AccessPolicy σ ε} {paths : ResolvedPaths}

/-- Distinct targets are distinct files: what is done at a target, or at the document, leaves what
is at the other targets. It does so in every state of the filesystem; where only the states with
some invariant matter, the filesystem is the one over these (`FileSystem.restrict`). Plain trees are
separate (`treeWorkspace_separate`), and so are trees with links outside of the source root
(`linkWorkspace_separate`). -/
structure Workspace.Separate (W : Workspace fs access paths) (targets : Set FragmentPath) :
    Prop where
  createDirAll : ∀ dir path parent s, W.IsRoot dir → path ∈ targets →
    nonemptyParent (relativePath path) = some parent → ∀ other ∈ targets, other ≠ path →
      (W.view (fs.dirCreateDirAll dir parent s).2).target other = (W.view s).target other
  openWith : ∀ dir path options s, W.IsRoot dir → path ∈ targets → ∀ other ∈ targets,
    other ≠ path → (W.view (fs.dirOpenWith dir (relativePath path) options s).2).target other =
      (W.view s).target other
  writeAll : ∀ file bytes s, ∀ other ∈ targets,
    (W.view (fs.writeAll file bytes s).2).target other = (W.view s).target other
  writeDocument : ∀ bytes s, (W.view s).document ≠ none → ∀ other ∈ targets,
    (W.view (fs.write paths.document bytes s).2).target other = (W.view s).target other

/-- Making the directories above a target makes nothing at the target itself. -/
def Workspace.MakesAbove (W : Workspace fs access paths) (targets : Set FragmentPath) : Prop :=
  ∀ dir path parent s, W.IsRoot dir → path ∈ targets →
    nonemptyParent (relativePath path) = some parent →
      (W.view (fs.dirCreateDirAll dir parent s).2).target path = (W.view s).target path

variable {W : Workspace fs access paths} {targets : Set FragmentPath}

/-- Fewer targets are separate if more are. -/
theorem Workspace.Separate.mono {targets' : Set FragmentPath} (h : W.Separate targets)
    (hsub : targets' ⊆ targets) : W.Separate targets' :=
  ⟨fun dir path parent s hdir hpath hparent other hother =>
      h.createDirAll dir path parent s hdir (hsub hpath) hparent other (hsub hother),
    fun dir path options s hdir hpath other hother =>
      h.openWith dir path options s hdir (hsub hpath) other (hsub hother),
    fun file bytes s other hother => h.writeAll file bytes s other (hsub hother),
    fun bytes s hs other hother => h.writeDocument bytes s hs other (hsub hother)⟩

/-- At the targets other than `path` is what was there. -/
def Workspace.Leaves (W : Workspace fs access paths) (targets : Set FragmentPath)
    (path : FragmentPath) (s t : σ) : Prop :=
  ∀ other ∈ targets, other ≠ path → (W.view t).target other = (W.view s).target other

/-- Doing nothing leaves all other targets alone. -/
theorem Workspace.Leaves.refl {path : FragmentPath} (s : σ) : W.Leaves targets path s s :=
  fun _ _ _ => rfl

/-- Two steps that leave the other targets alone do so together. -/
theorem Workspace.Leaves.trans {path : FragmentPath} (s t u : σ) (h : W.Leaves targets path s t)
    (h' : W.Leaves targets path t u) : W.Leaves targets path s u :=
  fun other hother hne => (h' other hother hne).trans (h other hother hne)

/-- What observes the disk leaves the targets. -/
theorem leaves_of_observes {ε' α : Type} {x : Run σ ε' α} {path : FragmentPath}
    {Q : Disk φ → α → Prop} {P : Disk φ → ε' → Prop} (h : ∀ d, x.Observes W.view d (Q d) (P d)) :
    Run.Moves (W.Leaves targets path) x := by
  intro s other _ _
  rw [(h _ s rfl).1]

variable {root : SourceRoot δ}

/-- The directories above a target leave what is at the targets. Directories are made above one
target only, and no other target is above it. -/
theorem createParent_target (hseparate : W.Separate targets) (habove : W.MakesAbove targets)
    (hroot : W.IsRoot root.directory) {output : ExternalOutput} (hpath : output.path ∈ targets)
    {completed : List FragmentPath} {s t : σ}
    {r : Except (PolicyFailure (CommitAccessFailure ε) CommitError) Unit}
    (h : createParent (realFilesystem fs root) completed output s = (r, t)) :
    ∀ other ∈ targets, (W.view t).target other = (W.view s).target other := by
  unfold createParent at h
  cases hparent : nonemptyParent (relativePath output.path) with
  | none =>
    rw [hparent] at h
    cases h
    exact fun _ _ => rfl
  | some parent =>
    rw [hparent] at h
    have ht : (fs.dirCreateDirAll root.directory parent s).2 = t := congrArg Prod.snd h
    rw [← ht]
    intro other hother
    by_cases heq : other = output.path
    · rw [heq]
      exact habove _ _ _ s hroot hpath hparent
    · exact hseparate.createDirAll _ _ _ s hroot hpath hparent other hother heq

/-- Writing one target leaves the others alone: opening it touches no other target's file, and what
is written goes to the opened file. -/
theorem writeExternal_leaves (hseparate : W.Separate targets) (hroot : W.IsRoot root.directory)
    {path : FragmentPath} (hpath : path ∈ targets) (bytes : Bytes) (write : ExternalWrite)
    (absentTargets : List FragmentPath) : Run.Moves (W.Leaves targets path)
      ((realFilesystem fs root).writeExternal path bytes write absentTargets) := by
  have hopen : ∀ options, Run.Moves (W.Leaves targets path)
      (fs.dirOpenWith root.directory (relativePath path) options) := fun options s other hother hne =>
    hseparate.openWith _ _ _ s hroot hpath other hother hne
  have hwrite : ∀ file bytes, Run.Moves (W.Leaves targets path) (fs.writeAll file bytes) :=
    fun file bytes s other hother _ => hseparate.writeAll file bytes s other hother
  cases write with
  | createNew =>
    refine .bind Workspace.Leaves.trans (hopen _) fun file => .bind Workspace.Leaves.trans
      (leaves_of_observes fun d => W.fileMetadata file d) fun m => .bind Workspace.Leaves.trans
        (hwrite file bytes) fun _ => ?_
    exact leaves_of_observes fun d => findAlias_observes W hroot path m.identity absentTargets d
  | createOrTruncate =>
    exact .bind Workspace.Leaves.trans (.bind Workspace.Leaves.trans (hopen _) fun file =>
      hwrite file bytes) fun _ => .pure Workspace.Leaves.refl _

/-- The write of an output leaves what is at the other targets. Its directories, its opening and its
write all do, and the search for another target reads only. -/
theorem commitExternal_leaves (hseparate : W.Separate targets) (hroot : W.IsRoot root.directory)
    {output : ExternalOutput} (hpath : output.path ∈ targets)
    (absentTargets completed : List FragmentPath) : Run.Moves (W.Leaves targets output.path)
      (commitExternal access (realFilesystem fs root) absentTargets completed output) := by
  have hbody := writeExternal_leaves hseparate hroot hpath output.bytes output.write absentTargets
  rw [commitExternal_eq]
  refine .bind Workspace.Leaves.trans ?_ fun _ => .bind Workspace.Leaves.trans ?_ fun aliased => ?_
  · unfold createParent
    split
    · next parent hparent =>
      refine Run.Moves.mapError fun s other hother hne => ?_
      exact hseparate.createDirAll _ _ _ s hroot hpath hparent other hother hne
    · exact .pure Workspace.Leaves.refl _
  · refine Run.Moves.mapError ?_
    refine .bind Workspace.Leaves.trans (Run.Moves.mapError ?_)
      fun _ => .ofExcept Workspace.Leaves.refl _
    exact .bind Workspace.Leaves.trans (leaves_of_observes fun d => W.grant _ _ d)
      fun _ => hbody.attempt
  · cases aliased with
    | some other => exact .fail Workspace.Leaves.refl _
    | none => exact .pure Workspace.Leaves.refl _

/-- The write of the document leaves what is at the targets. The document is none of them, and it is
there already. -/
theorem commitDocument_leaves (hseparate : W.Separate targets) {completed : List FragmentPath}
    {bytes : Bytes} {s : σ} (hdocument : (W.view s).document ≠ none) : ∀ other ∈ targets,
      (W.view (commitDocument access (realFilesystem fs root) completed
        (some ⟨paths.document, bytes⟩) s).2).target other = (W.view s).target other := by
  intro other hother
  have hrun : commitDocument access (realFilesystem fs root) completed
      (some ⟨paths.document, bytes⟩) s = (flatten (access.around .write paths.document
        (fs.write paths.document bytes))).mapError
          (commitFailure completed (.writeDocument paths.document)) s := rfl
  obtain ⟨hgrant, -⟩ := W.grant .write paths.document _ s rfl
  rw [hrun, Run.mapError_apply, flatten_around]
  cases hgranted : access.grant .write paths.document s with
  | mk granted u =>
  rw [hgranted] at hgrant
  dsimp only at hgrant
  cases granted with
  | error e =>
    dsimp only
    rw [hgrant]
  | ok _ =>
    dsimp only
    rw [hseparate.writeDocument bytes u (by rwa [hgrant]) other hother, hgrant]

end

/-! ## What stands in the files -/

/-- On the way from the disk `d` to the disk `d'` the entries in `done` were written to their files,
and the other entries have their files as they were. The document holds the bytes. -/
structure Standing {φ : Type} (d : Disk φ) (entries : List InventoryEntry) (identity : FileIdentity)
    (bytes : Bytes) (done : List InventoryEntry) (d' : Disk φ) : Prop where
  document : d'.document = some identity
  bytes : d'.content identity = some bytes
  /-- At a target is a regular file or nothing. -/
  regular : ∀ entry ∈ entries, d'.file entry.path = none → d'.target entry.path = none
  /-- A file at a target is there, and is not the document. -/
  stored : ∀ entry ∈ entries, ∀ i, d'.file entry.path = some i → d'.content i ≠ none ∧ i ≠ identity
  distinct : ∀ entry ∈ entries, ∀ other ∈ entries, ∀ i, d'.file entry.path = some i →
    d'.file other.path = some i → entry.path = other.path
  present : ∀ entry ∈ entries, entry.filesystem ≠ none → ∃ i, d'.file entry.path = some i
  listed : ∀ entry ∈ done, entry ∈ entries
  written : ∀ entry ∈ done, d'.holds entry.path = some (encode entry.embedded.value)
  kept : ∀ entry ∈ entries, entry ∉ done → d'.holds entry.path = d.holds entry.path

namespace Standing
variable {φ : Type} {d d' d'' : Disk φ} {entries done : List InventoryEntry} {i₀ : FileIdentity}
  {bytes : Bytes}

/-- What stands before anything is written. The entries say what the files hold, and each of these
files is of one entry only. -/
theorem ofLists {δ : Type} {root : SourceRoot δ} {document : Path} {ds : List DiscoveredFragment}
    (hdocument : d.document = some i₀) (hbytes : d.content i₀ = some bytes)
    (h : Lists d root (some ⟨document, i₀⟩) [] ds entries) :
    Standing d entries i₀ bytes [] d := by
  have hidentity : ∀ {path i}, d.file path = some i → d.identity path = some i := by
    intro path i hi
    rw [Disk.identity, Disk.file_eq_some.1 hi]
    rfl
  refine ⟨hdocument, hbytes, fun entry hentry hnone => ?_, fun entry hentry i hi => ⟨?_, ?_⟩, ?_,
    fun entry hentry hfile => ?_, by simp, by simp, fun _ _ _ => rfl⟩
  · have hfound := h.found entry hentry
    generalize entry.filesystem = found at hfound
    cases hfound with
    | absent hnone => exact hnone
    | present htarget => rw [Disk.file_eq_some.2 htarget] at hnone; cases hnone
  · rcases (h.found entry hentry).holds with ⟨-, hnone⟩ | ⟨j, _, _, _, -, hj, hcontent, -, -⟩
    · rw [hnone] at hi
      cases hi
    · rw [hj] at hi
      cases hi
      rw [hcontent]
      simp
  · exact Ne.symm ((h.apart entry hentry i (hidentity hi)).2 _ rfl)
  · intro entry hentry other hother i hi hi'
    by_contra hne
    have hpairwise := List.pairwise_filterMap.1 h.distinct
    have : Std.Symm fun a b : InventoryEntry => ∀ j, d.identity a.path = some j →
        ∀ k, d.identity b.path = some k → j ≠ k := ⟨fun a b hab j hj k hk => (hab k hk j hj).symm⟩
    exact hpairwise.forall hentry hother (fun heq => hne (by rw [heq])) i (hidentity hi) i
      (hidentity hi') rfl
  · obtain ⟨i, hi⟩ := h.present hentry hfile
    exact ⟨i, Disk.file_eq_some.2 hi⟩

/-- The file at a target is what is there. -/
theorem identity_eq (h : Standing d entries i₀ bytes done d') {entry : InventoryEntry}
    (hentry : entry ∈ entries) : d'.identity entry.path = d'.file entry.path := by
  rw [Disk.identity]
  cases hfile : d'.file entry.path with
  | none => rw [h.regular entry hentry hfile, Option.map_none]
  | some i => rw [Disk.file_eq_some.1 hfile, Option.map_some]

/-- The files at the entries and their contents are those that were there. So whatever only adds
things elsewhere keeps `Standing`. -/
theorem of_same (h : Standing d entries i₀ bytes done d') (hextends : d'.Extends d'')
    (hcontent : d''.content = d'.content)
    (htarget : ∀ entry ∈ entries, d''.target entry.path = d'.target entry.path) :
    Standing d entries i₀ bytes done d'' := by
  have hfile : ∀ entry ∈ entries, d''.file entry.path = d'.file entry.path :=
    fun entry hentry => Disk.file_congr (htarget entry hentry)
  have hholds : ∀ entry ∈ entries, d''.holds entry.path = d'.holds entry.path := by
    intro entry hentry
    rw [Disk.holds, Disk.holds, hfile entry hentry, hcontent]
  refine ⟨hextends.document _ h.document, by rw [hcontent, h.bytes], ?_, ?_, ?_, ?_, h.listed, ?_,
    ?_⟩
  · intro entry hentry hnone
    rw [hfile entry hentry] at hnone
    rw [htarget entry hentry]
    exact h.regular entry hentry hnone
  · intro entry hentry i hi
    rw [hcontent]
    exact h.stored entry hentry i (by rwa [← hfile entry hentry])
  · intro entry hentry other hother i hi hi'
    exact h.distinct entry hentry other hother i (by rwa [← hfile entry hentry])
      (by rwa [← hfile other hother])
  · intro entry hentry hpresent
    rw [hfile entry hentry]
    exact h.present entry hentry hpresent
  · intro entry hentry
    rw [hholds entry (h.listed entry hentry)]
    exact h.written entry hentry
  · intro entry hentry hnot
    rw [hholds entry hentry]
    exact h.kept entry hentry hnot

/-- One more entry is written to its file. The file of the entry is no other entry's and not the
document. If it is new, no one had it, and if it was there, the entries had told it apart. -/
theorem write (h : Standing d entries i₀ bytes done d') (horder : InPathOrder entries)
    {entry : InventoryEntry} (hentry : entry ∈ entries) {i : FileIdentity}
    (hwritten : Written d' entry i (encode entry.embedded.value) d'')
    (htargets : ∀ other ∈ entries, other.path ≠ entry.path →
      d''.target other.path = d'.target other.path) :
    Standing d entries i₀ bytes (done ++ [entry]) d'' := by
  have hleaves : ∀ other ∈ entries, other.path ≠ entry.path →
      d''.file other.path = d'.file other.path :=
    fun other hother hne => Disk.file_congr (htargets other hother hne)
  have hfile : d''.file entry.path = some i := Disk.file_eq_some.2 hwritten.target
  have hself : d''.content i = some (encode entry.embedded.value) := hwritten.sets.self
  -- the file that is written is not the one of another entry, and not the document
  have hapart : i ≠ i₀ ∧ ∀ other ∈ entries, other.path ≠ entry.path →
      ∀ j, d'.file other.path = some j → j ≠ i := by
    by_cases hnone : entry.filesystem = none
    · have hfresh := (hwritten.absent hnone).2
      refine ⟨fun heq => ?_, fun other hother _ j hj heq => ?_⟩
      · rw [heq, h.bytes] at hfresh
        cases hfresh
      · rw [← heq] at hfresh
        exact (h.stored other hother j hj).1 hfresh
    · have hi := Disk.file_eq_some.2 (hwritten.present hnone)
      refine ⟨(h.stored entry hentry i hi).2, fun other hother hne j hj heq => ?_⟩
      rw [heq] at hj
      exact hne (h.distinct other hother entry hentry i hj hi)
  have hkept : ∀ other ∈ entries, other.path ≠ entry.path →
      d''.holds other.path = d'.holds other.path := by
    intro other hother hne
    rw [Disk.holds, Disk.holds, hleaves other hother hne]
    cases hj : d'.file other.path with
    | none => rfl
    | some j => exact hwritten.sets.of_ne (hapart.2 other hother hne j hj)
  have hsame : ∀ other ∈ entries, other.path = entry.path → other = entry :=
    fun other hother heq => horder.path_inj hother hentry heq
  have hholds : d''.holds entry.path = some (encode entry.embedded.value) := by
    rw [Disk.holds_of hfile, hself]
  refine ⟨hwritten.extends_.document _ h.document, ?_, ?_, ?_, ?_, ?_, ?_, ?_, ?_⟩
  · rw [hwritten.sets.of_ne (Ne.symm hapart.1), h.bytes]
  · intro other hother hnone
    by_cases hpath : other.path = entry.path
    · rw [hpath, hfile] at hnone
      cases hnone
    · rw [hleaves other hother hpath] at hnone
      rw [htargets other hother hpath]
      exact h.regular other hother hnone
  · intro other hother j hj
    by_cases hpath : other.path = entry.path
    · rw [hpath, hfile] at hj
      cases hj
      exact ⟨by rw [hself]; simp, hapart.1⟩
    · rw [hleaves other hother hpath] at hj
      rw [hwritten.sets.of_ne (hapart.2 other hother hpath j hj)]
      exact h.stored other hother j hj
  · intro a ha b hb j hj hj'
    by_cases hpath : a.path = entry.path <;> by_cases hpath' : b.path = entry.path
    · rw [hpath, hpath']
    · rw [hpath, hfile] at hj
      rw [hleaves b hb hpath'] at hj'
      exact absurd (Option.some.inj hj).symm (hapart.2 b hb hpath' j hj')
    · rw [hpath', hfile] at hj'
      rw [hleaves a ha hpath] at hj
      exact absurd (Option.some.inj hj').symm (hapart.2 a ha hpath j hj)
    · rw [hleaves a ha hpath] at hj
      rw [hleaves b hb hpath'] at hj'
      exact h.distinct a ha b hb j hj hj'
  · intro other hother hpresent
    obtain ⟨j, hj⟩ := h.present other hother hpresent
    exact ⟨j, hwritten.extends_.file hj⟩
  · intro other hother
    rcases List.mem_append.1 hother with hother | hother
    · exact h.listed other hother
    · rw [List.mem_singleton.1 hother]
      exact hentry
  · intro other hother
    rcases List.mem_append.1 hother with hother | hother
    · by_cases hpath : other.path = entry.path
      · rw [hsame other (h.listed other hother) hpath]
        exact hholds
      · rw [hkept other (h.listed other hother) hpath]
        exact h.written other hother
    · rw [List.mem_singleton.1 hother]
      exact hholds
  · intro other hother hnot
    rw [List.mem_append, not_or, List.mem_singleton] at hnot
    rw [hkept other hother fun heq => hnot.2 (hsame other hother heq)]
    exact h.kept other hother hnot.1

/-- The document is written. No entry's file is the document. So what stands at the targets stays,
with all that was written there. -/
theorem writeDocument (h : Standing d entries i₀ bytes done d') {bytes' : Bytes}
    (hextends : d'.Extends d'') (hsets : d'.Sets d'' i₀ bytes')
    (htarget : ∀ entry ∈ entries, d''.target entry.path = d'.target entry.path) :
    Standing d entries i₀ bytes' done d'' := by
  have hfile : ∀ entry ∈ entries, d''.file entry.path = d'.file entry.path :=
    fun entry hentry => Disk.file_congr (htarget entry hentry)
  have hcontent : ∀ entry ∈ entries, ∀ i, d''.file entry.path = some i →
      d''.content i = d'.content i := by
    intro entry hentry i hi
    rw [hfile entry hentry] at hi
    exact hsets.of_ne (h.stored entry hentry i hi).2
  have hholds : ∀ entry ∈ entries, d''.holds entry.path = d'.holds entry.path := by
    intro entry hentry
    rw [Disk.holds, Disk.holds, ← hfile entry hentry]
    cases hi : d''.file entry.path with
    | none => rfl
    | some i => exact hcontent entry hentry i hi
  refine ⟨hextends.document _ h.document, hsets.self, ?_, ?_, ?_, ?_, h.listed, ?_, ?_⟩
  · intro entry hentry hnone
    rw [hfile entry hentry] at hnone
    rw [htarget entry hentry]
    exact h.regular entry hentry hnone
  · intro entry hentry i hi
    rw [hcontent entry hentry i hi]
    exact h.stored entry hentry i (by rwa [← hfile entry hentry])
  · intro entry hentry other hother i hi hi'
    exact h.distinct entry hentry other hother i (by rwa [← hfile entry hentry])
      (by rwa [← hfile other hother])
  · intro entry hentry hpresent
    rw [hfile entry hentry]
    exact h.present entry hentry hpresent
  · intro entry hentry
    rw [hholds entry (h.listed entry hentry)]
    exact h.written entry hentry
  · intro entry hentry hnot
    rw [hholds entry hentry]
    exact h.kept entry hentry hnot

end Standing

/-! ## Runs that return -/

section
variable {σ δ φ ε : Type} {fs : FileSystem σ δ φ} {access : AccessPolicy σ ε}

section
variable {paths : ResolvedPaths} {W : Workspace fs access paths} {targets : Set FragmentPath}
  {root : SourceRoot δ} {d : Disk φ} {entries done : List InventoryEntry} {i₀ : FileIdentity}
  {bytes : Bytes}

/-- An output that is written stands in its file, and nothing else has changed. If it fails
otherwise, then its new file would be another target, which is excluded later. -/
theorem commitExternal_standing (hseparate : W.Separate targets) (hroot : W.IsRoot root.directory)
    (horder : InPathOrder entries) (htargets : ∀ entry ∈ entries, entry.path ∈ targets)
    {entry : InventoryEntry} (hentry : entry ∈ entries)
    {absentTargets completed : List FragmentPath} {s t : σ}
    {r : Except (PolicyFailure (CommitAccessFailure ε) CommitError) (List FragmentPath)}
    (h : commitExternal access (realFilesystem fs root) absentTargets completed
      (externalOutput entry) s = (r, t))
    (hstanding : Standing d entries i₀ bytes done (W.view s)) :
    (∃ e, r = .error e ∧ FailsInIo e) ∨
      Standing d entries i₀ bytes (done ++ [entry]) (W.view t) ∧
      ∀ e, r = .error e → ∃ i other, (W.view t).file entry.path = some i ∧
        (W.view t).Aliased absentTargets entry.path i other := by
  have hpresent : entry.filesystem ≠ none → ∃ i, (W.view s).target entry.path = some ⟨.file, i⟩ :=
    fun hfile => (hstanding.present entry hentry hfile).imp fun i hi => Disk.file_eq_some.1 hi
  have hleaves := @commitExternal_leaves _ _ _ _ _ access _ W targets root hseparate hroot
    (externalOutput entry) (htargets entry hentry) absentTargets completed s
  rw [h] at hleaves
  rcases commitExternal_spec W hroot h hpresent with ⟨hfails, -⟩ | ⟨i, n, hwritten, hfull, hfails⟩
  · exact .inl hfails
  rcases hfull with hfull | ⟨_, _, _, rfl⟩
  · have hbytes : (externalOutput entry).bytes.take n = encode entry.embedded.value := hfull
    rw [hbytes] at hwritten
    have hnext := hstanding.write horder hentry hwritten fun other hother hne =>
      hleaves _ (htargets other hother) hne
    by_cases hio : ∃ e, r = .error e ∧ FailsInIo e
    · exact .inl hio
    · refine .inr ⟨hnext, fun e he => ?_⟩
      obtain ⟨other, hother⟩ := (hfails e he).resolve_left fun hfail => hio ⟨e, he, hfail⟩
      exact ⟨i, other, Disk.file_eq_some.2 hwritten.target, hother⟩
  · exact .inl ⟨_, rfl, trivial⟩

/-- Outputs that are written stand in their files, and nothing else has changed. The induction is on
the outputs, with those that were written before. -/
theorem commitExternals_standing (hseparate : W.Separate targets) (hroot : W.IsRoot root.directory)
    (horder : InPathOrder entries) (htargets : ∀ entry ∈ entries, entry.path ∈ targets)
    {outputs : List InventoryEntry} (houtputs : ∀ entry ∈ outputs, entry ∈ entries)
    {absentTargets completed completed' : List FragmentPath} {s t : σ}
    (h : commitExternals access (realFilesystem fs root) absentTargets completed
      (outputs.map externalOutput) s = (.ok completed', t))
    (hstanding : Standing d entries i₀ bytes done (W.view s)) :
    Standing d entries i₀ bytes (done ++ outputs) (W.view t) := by
  induction outputs generalizing done completed s with
  | nil =>
    cases h
    rwa [List.append_nil]
  | cons entry outputs ih =>
    rw [List.forall_mem_cons] at houtputs
    obtain ⟨completed₁, t₁, hone, h⟩ := Run.bind_eq_ok.1 h
    rcases commitExternal_standing hseparate hroot horder htargets houtputs.1 hone hstanding with
      ⟨e, he, -⟩ | ⟨hnext, -⟩
    · cases he
    have hrest := ih houtputs.2 h hnext
    rwa [List.append_assoc] at hrest

/-- The loop over the outputs fails with the filesystem only: no target is the file of another one.
The induction is on the outputs. A target that was found to be another one would have the same file,
and `Standing` excludes this. -/
theorem commitExternals_failsInIo (hseparate : W.Separate targets) (hroot : W.IsRoot root.directory)
    (horder : InPathOrder entries) (htargets : ∀ entry ∈ entries, entry.path ∈ targets)
    {outputs : List InventoryEntry} (houtputs : ∀ entry ∈ outputs, entry ∈ entries)
    {absentTargets completed : List FragmentPath}
    (habsent : ∀ path ∈ absentTargets, ∃ entry ∈ entries, entry.path = path) {s t : σ}
    {e : PolicyFailure (CommitAccessFailure ε) CommitError}
    (h : commitExternals access (realFilesystem fs root) absentTargets completed
      (outputs.map externalOutput) s = (.error e, t))
    (hstanding : Standing d entries i₀ bytes done (W.view s)) : FailsInIo e := by
  induction outputs generalizing done completed s with
  | nil => cases h
  | cons entry outputs ih =>
    rw [List.forall_mem_cons] at houtputs
    rcases Run.bind_eq_error.1 h with hone | ⟨completed₁, t₁, hone, hrest⟩
    · rcases commitExternal_standing hseparate hroot horder htargets houtputs.1 hone hstanding with
        ⟨e', he, hfails⟩ | ⟨hnext, halias⟩
      · rwa [Except.error.inj he]
      · obtain ⟨i, _, hfile, hother, hne, hidentity⟩ := halias e rfl
        obtain ⟨other, hmem, rfl⟩ := habsent _ hother
        rw [hnext.identity_eq hmem] at hidentity
        exact absurd (hnext.distinct other hmem entry houtputs.1 i hidentity hfile) hne
    · rcases commitExternal_standing hseparate hroot horder htargets houtputs.1 hone hstanding with
        ⟨e', he, -⟩ | ⟨hnext, -⟩
      · cases he
      · exact ih houtputs.2 hrest hnext

end

/-- The targets of an inventory. -/
def Inventory.targets (inventory : Inventory δ) : Set FragmentPath :=
  {path | ∃ entry ∈ inventory.entries, entry.path = path}

variable [Sha256] {request : Request} {s t u : σ} {b : Batch δ}

/-- A command that returns leaves what it has prepared, and nothing else. If there is nothing to
commit, nothing has changed. -/
theorem Prepares.finishes (h : Prepares fs access request s b u) {W : Workspace fs access b.paths}
    (hseparate : W.Separate b.inventory.targets) {report : Report}
    (hrun : executeWithAccess fs access request s = (.ok report, t)) :
    report = b.report ∧ ∃ i, (W.view s).document = some i ∧
      Standing (W.view s) b.inventory.entries i (b.output.getD b.inventory.documentBytes)
        b.prepared.extracted (W.view t) := by
  obtain ⟨hview, hshows⟩ := h.shows W
  obtain ⟨i, hdocument, hbytes, _, ds, -, -, hlists⟩ := hshows.listed
  obtain ⟨horder, -, hsublist, -⟩ := h.selected_sublist
  have hstart := Standing.ofLists hdocument hbytes hlists
  rw [executeWithAccess, h.executeUsing_eq] at hrun
  split at hrun
  · next hnothing =>
    cases hrun
    rw [List.isEmpty_iff, Option.isNone_iff_eq_none] at hnothing
    rw [hnothing.1, hnothing.2, hview]
    exact ⟨rfl, i, hdocument, hstart⟩
  obtain ⟨_, t', hcommit, hpure⟩ := Run.bind_eq_ok.1 hrun
  cases hpure
  refine ⟨rfl, i, hdocument, ?_⟩
  have hcommitted : commitUsing access (realFilesystem fs b.inventory.sourceRoot) b.external
      (absentTargets b.inventory.entries) b.document u = (.ok _, t) := Run.mapError_eq_ok.1 hcommit
  obtain ⟨_, s₁, hordered, houtputs⟩ := Run.bind_eq_ok.1 hcommitted
  obtain ⟨completed, t₁, hexternals, hfinal⟩ := Run.bind_eq_ok.1 houtputs
  rw [(operation_eq_ok.1 hordered).2] at hexternals
  rw [← hview] at hstart
  have hwritten := commitExternals_standing hseparate hshows.isRoot horder
    (fun entry hentry => ⟨entry, hentry, rfl⟩)
    (fun entry hentry => hsublist.subset (h.mem_extracted.1 hentry).1) hexternals hstart
  rw [List.nil_append, hview] at hwritten
  cases houtput : b.output with
  | none =>
    rw [Batch.document, houtput] at hfinal
    cases hfinal
    exact hwritten
  | some new =>
    rw [Batch.document, houtput] at hfinal
    have hleaves := @commitDocument_leaves _ _ _ _ _ access _ W _ b.inventory.sourceRoot hseparate
      completed new t₁ (by rw [hwritten.document]; simp)
    rw [show commitDocument access (realFilesystem fs b.inventory.sourceRoot) completed
      (some ⟨b.paths.document, new⟩) t₁ = (.ok _, t) from hfinal] at hleaves
    rcases commitDocument_spec W hfinal hwritten.document with ⟨⟨e, he⟩, -⟩ | ⟨hextends, n, hsets,
      hfull⟩
    · cases he
    rw [hfull rfl] at hsets
    exact hwritten.writeDocument hextends hsets fun entry hentry => hleaves _ ⟨entry, hentry, rfl⟩

/-- The filesystem failed a command, or an access was refused. -/
inductive EngineFailsInIo : PolicyFailure (EngineAccessFailure ε) Error → Prop
  | access {failure : EngineAccessFailure ε} : EngineFailsInIo (.access failure)
  | inventory {error : InventoryError} : error.OfIo → EngineFailsInIo (.operation (.inventory error))
  | commit {error : CommitError} :
      error.failure.OfIo → EngineFailsInIo (.operation (.commit error))

/-- A command that is prepared fails with the filesystem only. The order of the outputs is right, so
the commit gets to its writes. -/
theorem Prepares.failsInIo (h : Prepares fs access request s b u) {W : Workspace fs access b.paths}
    (hseparate : W.Separate b.inventory.targets)
    {failure : PolicyFailure (EngineAccessFailure ε) Error}
    (hrun : executeWithAccess fs access request s = (.error failure, t)) :
    EngineFailsInIo failure := by
  obtain ⟨hview, hshows⟩ := h.shows W
  obtain ⟨i, hdocument, hbytes, _, ds, -, -, hlists⟩ := hshows.listed
  obtain ⟨horder, -, hsublist, -⟩ := h.selected_sublist
  have hsorted := h.preparedFrom.2.1.extracted_sorted (horder.sublist (hsublist.map _))
  have hstart := Standing.ofLists hdocument hbytes hlists
  rw [← hview] at hstart
  rw [executeWithAccess, h.executeUsing_eq] at hrun
  split at hrun
  · cases hrun
  rcases Run.bind_eq_error.1 hrun with hcommit | ⟨_, _, -, hpure⟩
  · rw [Batch.commit, Run.mapError_apply, Prod.mk.injEq] at hcommit
    cases hr : commitUsing access (realFilesystem fs b.inventory.sourceRoot) b.external
      (absentTargets b.inventory.entries) b.document u with
    | mk r t' =>
    rw [hr] at hcommit
    cases r with
    | ok _ => cases hcommit.1
    | error e =>
      have hfails : FailsInIo e := by
        rcases Run.bind_eq_error.1 hr with hordered | ⟨_, s₁, hordered, houtputs⟩
        · have hvalid : validateOrder b.external = .ok () := validateOrder_eq_ok.2 hsorted
          cases hordered.symm.trans (operation_of_ok hvalid)
        obtain rfl := (operation_eq_ok.1 hordered).2
        rcases Run.bind_eq_error.1 houtputs with hexternals | ⟨completed, t₁, -, hfinal⟩
        · refine commitExternals_failsInIo hseparate hshows.isRoot horder
            (fun entry hentry => ⟨entry, hentry, rfl⟩)
            (fun entry hentry => hsublist.subset (h.mem_extracted.1 hentry).1) (fun path hpath => ?_)
            hexternals hstart
          obtain ⟨entry, hentry, rfl⟩ := List.mem_map.1 hpath
          exact ⟨entry, (List.mem_filter.1 hentry).1, rfl⟩
        · have hdocument : Run.FailsIn (@FailsInIo ε) (commitDocument access
              (realFilesystem fs b.inventory.sourceRoot) completed b.document) := by
            cases b.document with
            | none => exact .pure _
            | some document => exact .mapError_of (fun e => by cases e <;> trivial) _
          exact hdocument t₁ e (congrArg Prod.fst hfinal)
      cases e with
      | access source =>
        cases hcommit.1
        exact .access
      | operation error =>
        cases hcommit.1
        exact .commit hfails
  · cases hpure

end

end Zwirn.Sync
