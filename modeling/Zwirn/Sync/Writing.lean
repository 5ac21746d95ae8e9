import Zwirn.Sync.Disk

/-!
# Writing on a disk

What a commit does to a disk, however far it gets. An output fills the file of its target, or a new
one (`Written`), and is cut short only when its own write fails (`commitExternal_spec`). So after a
commit a file has changed only if it is the one of an output or of the document
(`commitExternals_spec`, `commitDocument_spec`).
-/

namespace Zwirn.Sync

open Lib Fragment

/-- The file of an entry is filled: the one that was there, or a new one. A new file stands at an
identity that had no content. -/
structure Written {φ : Type} (d : Disk φ) (entry : InventoryEntry) (identity : FileIdentity)
    (bytes : Bytes) (d' : Disk φ) : Prop where
  extends_ : d.Extends d'
  target : d'.target entry.path = some ⟨.file, identity⟩
  sets : d.Sets d' identity bytes
  present : entry.filesystem ≠ none → d.target entry.path = some ⟨.file, identity⟩
  absent : entry.filesystem = none → d.target entry.path = none ∧ d.content identity = none

/-- What an access to the disk leaves as it is. -/
structure Disk.Quiet {φ : Type} (d d' : Disk φ) : Prop where
  extends_ : d.Extends d'
  content : d'.content = d.content

/-- Doing nothing is quiet. -/
theorem Disk.Quiet.refl {φ : Type} (d : Disk φ) : d.Quiet d := ⟨.refl d, rfl⟩

/-- Two quiet steps are quiet together. -/
theorem Disk.Quiet.trans {φ : Type} {d d' d'' : Disk φ} (h : d.Quiet d') (h' : d'.Quiet d'') :
    d.Quiet d'' := ⟨h.extends_.trans h'.extends_, h'.content.trans h.content⟩

/-- A quiet step before a write makes no difference, since a target that was a file still is. -/
theorem Written.of_quiet {φ : Type} {d d₁ d' : Disk φ} {entry : InventoryEntry}
    {identity : FileIdentity} {bytes : Bytes} (hquiet : d.Quiet d₁)
    (hpresent : entry.filesystem ≠ none → ∃ i, d.target entry.path = some ⟨.file, i⟩)
    (h : Written d₁ entry identity bytes d') : Written d entry identity bytes d' := by
  refine ⟨hquiet.extends_.trans h.extends_, h.target, ?_, fun hfile => ?_, fun hfile => ?_⟩
  · rw [Disk.Sets, h.sets, hquiet.content]
  · obtain ⟨i, hi⟩ := hpresent hfile
    rw [hi, ← hquiet.extends_.target _ _ hi, h.present hfile]
  · rw [← hquiet.content]
    exact ⟨hquiet.extends_.absent (h.absent hfile).1, (h.absent hfile).2⟩

section
variable {σ δ φ ε : Type} {fs : FileSystem σ δ φ} {access : AccessPolicy σ ε}
  {paths : ResolvedPaths} (W : Workspace fs access paths) {root : SourceRoot δ}

/-- The target is another one of the candidates, and is the file. -/
def Disk.Aliased {φ : Type} (d : Disk φ) (candidates : List FragmentPath) (path : FragmentPath)
    (identity : FileIdentity) (other : FragmentPath) : Prop :=
  other ∈ candidates ∧ other ≠ path ∧ d.identity other = some identity

/-- An alias that is found is one. The induction is on the candidates, and the one that is found has
the identity at that moment. -/
theorem findAlias_observes (hroot : W.IsRoot root.directory) (path : FragmentPath)
    (identity : FileIdentity) (candidates : List FragmentPath) (d : Disk φ) :
    (root.findAlias fs path identity candidates).Observes W.view d
      (fun found => ∀ other, found = some other → d.Aliased candidates path identity other)
      fun _ => True := by
  induction candidates with
  | nil => exact .pure fun _ h => by cases h
  | cons candidate candidates ih =>
    have hrest := ih.mono (fun found hfound other hother =>
      (hfound other hother).imp_left (List.mem_cons_of_mem candidate)) fun _ h => h
    unfold SourceRoot.findAlias
    split
    · next hne =>
      have hprobe : (root.targetIdentity fs candidate).Observes W.view d
          (fun i => d.identity candidate = some i) fun _ => True := by
        refine .bind ((W.targetMetadata root.directory _ d hroot).mono (fun _ h => h)
          fun _ _ => trivial) fun m hm => .pure ?_
        rw [Disk.identity, hm]
        rfl
      refine .bind hprobe.attempt fun r hr => ?_
      split
      · next hsome =>
        refine .pure fun other hother => ?_
        cases hother
        cases r with
        | error e => cases hsome
        | ok i =>
          cases hsome
          exact ⟨List.mem_cons_self, hne, hr⟩
      · exact hrest
    · exact hrest

/-- A created target gets what is written to it, as far as it is written. It fails before anything
is created, or a new file stands at the target. -/
theorem createTarget_spec (hroot : W.IsRoot root.directory) {path : FragmentPath} {bytes : Bytes}
    {absentTargets : List FragmentPath} {s t : σ} {r : Except IoError (Option FragmentPath)}
    (h : root.createTarget fs path bytes absentTargets s = (r, t)) :
    ((∃ e, r = .error e) ∧ (W.view s).Quiet (W.view t)) ∨
    ∃ i n, (W.view s).Extends (W.view t) ∧ (W.view t).target path = some ⟨.file, i⟩ ∧
      (W.view s).Sets (W.view t) i (bytes.take n) ∧ (W.view s).target path = none ∧
      (W.view s).content i = none ∧ ((∃ a, r = .ok a) → bytes.take n = bytes) ∧
      ∀ other, r = .ok (some other) → (W.view t).Aliased absentTargets path i other := by
  unfold SourceRoot.createTarget at h
  cases hopen : fs.dirOpenWith root.directory (relativePath path) ⟨true, false, true, false⟩ s with
  | mk opened t₁ =>
  obtain ⟨hextends, hopened⟩ := W.createNew _ _ _ _ _ hroot hopen
  cases opened with
  | error e =>
    rw [Run.bind_of_error hopen] at h
    cases h
    exact .inl ⟨⟨e, rfl⟩, hextends, hopened⟩
  | ok file =>
  obtain ⟨i, hnone, hfresh, htarget, hhandle, hsets⟩ := hopened
  rw [Run.bind_of_ok hopen] at h
  cases hmetadata : fs.fileMetadata file t₁ with
  | mk metadata t₂ =>
  obtain ⟨hview₂, hread⟩ := W.fileMetadata file _ t₁ rfl
  rw [hmetadata] at hview₂ hread
  dsimp only at hview₂
  rw [← hview₂] at hextends htarget hhandle hsets
  cases metadata with
  | error e =>
    rw [Run.bind_of_error hmetadata] at h
    cases h
    exact .inr ⟨i, 0, hextends, htarget, hsets, hnone, hfresh,
      (fun hr => by cases hr.choose_spec), fun _ hr => by cases hr⟩
  | ok m =>
  rw [Run.bind_of_ok hmetadata] at h
  cases hwrite : fs.writeAll file bytes t₂ with
  | mk written t₃ =>
  obtain ⟨hextends₃, n, hsets₃, hfull⟩ := W.writeAll _ _ _ _ _ hwrite i hhandle hsets.self
  have hext := hextends.trans hextends₃
  have htar := hextends₃.target _ _ htarget
  have hset := hsets.trans hsets₃
  cases written with
  | error e =>
    rw [Run.bind_of_error hwrite] at h
    cases h
    exact .inr ⟨i, n, hext, htar, hset, hnone, hfresh, (fun hr => by cases hr.choose_spec),
      fun _ hr => by cases hr⟩
  | ok u =>
    rw [Run.bind_of_ok hwrite] at h
    obtain ⟨hview, hfound⟩ := findAlias_observes W hroot path m.identity absentTargets _ t₃ rfl
    rw [h] at hview hfound
    dsimp only at hview
    rw [← hview] at hext htar hset hfound
    refine .inr ⟨i, n, hext, htar, hset, hnone, hfresh, fun _ => hfull rfl, fun other hother => ?_⟩
    subst hother
    have hidentity : m = ⟨.file, i⟩ := hread _ (by rwa [← hview₂])
    rw [hidentity] at hfound
    exact hfound other rfl

/-- A replaced target gets what is written to it, as far as it is written. It fails before anything
is changed, or it has truncated the file that was there. -/
theorem replaceTarget_spec (hroot : W.IsRoot root.directory) {path : FragmentPath} {bytes : Bytes}
    {s t : σ} {r : Except IoError Unit} (h : root.replaceTarget fs path bytes s = (r, t))
    {i : FileIdentity} (htarget : (W.view s).target path = some ⟨.file, i⟩) :
    ((∃ e, r = .error e) ∧ (W.view s).Quiet (W.view t)) ∨
    ∃ n, (W.view s).Extends (W.view t) ∧ (W.view s).Sets (W.view t) i (bytes.take n) ∧
      (r = .ok () → bytes.take n = bytes) := by
  unfold SourceRoot.replaceTarget at h
  cases hopen : fs.dirOpenWith root.directory (relativePath path) ⟨true, true, false, true⟩ s with
  | mk opened t₁ =>
  obtain ⟨hextends, hopened⟩ := W.truncate _ _ _ _ _ hroot hopen i htarget
  cases opened with
  | error e =>
    rw [Run.bind_of_error hopen] at h
    cases h
    exact .inl ⟨⟨e, rfl⟩, hextends, hopened⟩
  | ok file =>
    obtain ⟨hhandle, hsets⟩ := hopened
    rw [Run.bind_of_ok hopen] at h
    obtain ⟨hextends', n, hsets', hfull⟩ := W.writeAll _ _ _ _ _ h i hhandle hsets.self
    exact .inr ⟨n, hextends.trans hextends', hsets.trans hsets', hfull⟩

/-- The body of the write of an output. The two ways of writing are told by the entry. A new file is
created empty and then filled; one that is there is emptied first. -/
theorem writeExternal_spec (hroot : W.IsRoot root.directory) {entry : InventoryEntry}
    {absentTargets : List FragmentPath} {s t : σ} {r : Except IoError (Option FragmentPath)}
    (h : (realFilesystem fs root).writeExternal entry.path (externalOutput entry).bytes
      (externalOutput entry).write absentTargets s = (r, t))
    (hpresent : entry.filesystem ≠ none → ∃ i, (W.view s).target entry.path = some ⟨.file, i⟩) :
    ((∃ e, r = .error e) ∧ (W.view s).Quiet (W.view t)) ∨
    ∃ i n, Written (W.view s) entry i ((externalOutput entry).bytes.take n) (W.view t) ∧
      ((∃ a, r = .ok a) → (externalOutput entry).bytes.take n = (externalOutput entry).bytes) ∧
      ∀ other, r = .ok (some other) → (W.view t).Aliased absentTargets entry.path i other := by
  cases hfile : entry.filesystem with
  | none =>
    have hwrite : (externalOutput entry).write = .createNew := if_pos (by rw [hfile]; rfl)
    rw [hwrite] at h
    rcases createTarget_spec W hroot h with hquiet | ⟨i, n, hext, htarget, hsets, hnone, hfresh,
      hfull, halias⟩
    · exact .inl hquiet
    · exact .inr ⟨i, n, ⟨hext, htarget, hsets, fun hne => absurd hfile hne,
        fun _ => ⟨hnone, hfresh⟩⟩, hfull, halias⟩
  | some source =>
    have hne : entry.filesystem ≠ none := by rw [hfile]; simp
    obtain ⟨i, hi⟩ := hpresent hne
    have hwrite : (externalOutput entry).write = .createOrTruncate :=
      if_neg (by rw [hfile]; simp)
    rw [hwrite] at h
    cases hreplace : root.replaceTarget fs entry.path (externalOutput entry).bytes s with
    | mk replaced t' =>
    have hresult : t = t' ∧ ((∃ a, r = .ok a) ↔ replaced = .ok ()) ∧
        ((∃ e, r = .error e) ↔ ∃ e, replaced = .error e) ∧ ∀ other, r ≠ .ok (some other) := by
      have hrun : ((root.replaceTarget fs entry.path (externalOutput entry).bytes) >>= fun _ =>
          pure none) s = (r, t) := h
      cases replaced with
      | ok u =>
        rw [Run.bind_of_ok hreplace] at hrun
        cases hrun
        simp
      | error e =>
        rw [Run.bind_of_error hreplace] at hrun
        cases hrun
        simp
    obtain ⟨rfl, hok, herror, halias⟩ := hresult
    rcases replaceTarget_spec W hroot hreplace hi with ⟨he, hquiet⟩ | ⟨n, hext, hsets, hfull⟩
    · exact .inl ⟨herror.2 he, hquiet⟩
    · exact .inr ⟨i, n, ⟨hext, hext.target _ _ hi, hsets, fun _ => hi,
        fun hnone => absurd hnone hne⟩, fun hr => hfull (hok.1 hr),
        fun other hother => absurd hother (halias other)⟩

/-- The creation of directories writes nothing. It may make directories and fail then. Directories
have no content, so no content is changed. -/
theorem createParent_quiet (hroot : W.IsRoot root.directory) {completed : List FragmentPath}
    {output : ExternalOutput} {s t : σ}
    {r : Except (PolicyFailure (CommitAccessFailure ε) CommitError) Unit}
    (h : createParent (realFilesystem fs root) completed output s = (r, t)) :
    (W.view s).Quiet (W.view t) := by
  unfold createParent at h
  cases hparent : nonemptyParent (relativePath output.path) with
  | none =>
    rw [hparent] at h
    cases h
    exact .refl _
  | some parent =>
    rw [hparent] at h
    obtain ⟨hextends, hcontent⟩ := W.createDirAll root.directory parent s hroot
    have ht : (fs.dirCreateDirAll root.directory parent s).2 = t := congrArg Prod.snd h
    rw [ht] at hextends hcontent
    exact ⟨hextends, hcontent⟩

/-- The outcome of a commit says that the write of the output failed. -/
def CutShort {α : Type} (path : FragmentPath)
    (r : Except (PolicyFailure (CommitAccessFailure ε) CommitError) α) : Prop :=
  ∃ completed destination source, r = .error (.operation
    ((CommitFailure.writeExternal path destination source).after completed))

/-- An output is written in full, unless the outcome says that its write failed; or nothing is
written, and the filesystem has failed. A failure of another kind names a target that is the file.
-/
theorem commitExternal_spec (hroot : W.IsRoot root.directory) {entry : InventoryEntry}
    {absentTargets completed : List FragmentPath} {s t : σ}
    {r : Except (PolicyFailure (CommitAccessFailure ε) CommitError) (List FragmentPath)}
    (h : commitExternal access (realFilesystem fs root) absentTargets completed
      (externalOutput entry) s = (r, t))
    (hpresent : entry.filesystem ≠ none → ∃ i, (W.view s).target entry.path = some ⟨.file, i⟩) :
    ((∃ e, r = .error e ∧ FailsInIo e) ∧ (W.view s).Quiet (W.view t)) ∨
    ∃ i n, Written (W.view s) entry i ((externalOutput entry).bytes.take n) (W.view t) ∧
      ((externalOutput entry).bytes.take n = (externalOutput entry).bytes ∨
        CutShort entry.path r) ∧
      ∀ e, r = .error e → FailsInIo e ∨
        ∃ other, (W.view t).Aliased absentTargets entry.path i other := by
  rw [commitExternal_eq] at h
  cases hparent : createParent (realFilesystem fs root) completed (externalOutput entry) s with
  | mk made t₁ =>
  have hquiet := createParent_quiet W hroot hparent
  have hfails := @createParent_failsInIo _ ε (realFilesystem fs root) completed
    (externalOutput entry) s
  rw [hparent] at hfails
  cases made with
  | error e =>
    rw [Run.bind_of_error hparent] at h
    cases h
    exact .inl ⟨⟨e, rfl, hfails e rfl⟩, hquiet⟩
  | ok u =>
  rw [Run.bind_of_ok hparent] at h
  obtain ⟨granted, t₂, hgranted, houtcome⟩ := writeOutput_cases access _ h
  obtain ⟨hgrant, -⟩ := W.grant .write _ _ t₁ rfl
  rw [hgranted] at hgrant
  dsimp only at hgrant
  rw [← hgrant] at hquiet
  rcases houtcome with ⟨e, e', -, rfl, rfl⟩ | ⟨result, -, hbody, houtcome⟩
  · exact .inl ⟨⟨_, rfl, trivial⟩, hquiet⟩
  have hpresent₂ : entry.filesystem ≠ none →
      ∃ i, (W.view t₂).target entry.path = some ⟨.file, i⟩ := fun hfile =>
    (hpresent hfile).imp fun i hi => hquiet.extends_.target _ _ hi
  rcases writeExternal_spec W hroot hbody hpresent₂ with ⟨⟨e, rfl⟩, hquiet'⟩ | ⟨i, n, hwritten,
    hfull, halias⟩
  · rcases houtcome with ⟨source, -, rfl⟩ | ⟨other, e', hresult, -⟩ | ⟨hresult, -⟩
    · exact .inl ⟨⟨_, rfl, trivial⟩, hquiet.trans hquiet'⟩
    · cases hresult
    · cases hresult
  · refine .inr ⟨i, n, hwritten.of_quiet hquiet hpresent, ?_⟩
    rcases houtcome with ⟨source, -, rfl⟩ | ⟨other, e', rfl, rfl⟩ | ⟨rfl, rfl⟩
    · exact ⟨.inr ⟨_, _, _, rfl⟩, fun e he => by cases he; exact .inl trivial⟩
    · exact ⟨.inl (hfull ⟨_, rfl⟩), fun _ _ => .inr ⟨other, halias other rfl⟩⟩
    · exact ⟨.inl (hfull ⟨_, rfl⟩), fun _ he => by cases he⟩

end

/-! ## The outputs -/

/-- Files are filled one behind another, and nothing is written in between. -/
inductive Writings {φ : Type} : Disk φ → List (InventoryEntry × Bytes) → Disk φ → Prop
  | nil {d d' : Disk φ} : d.Quiet d' → Writings d [] d'
  | cons {d d₁ d' : Disk φ} {entry : InventoryEntry} {bytes : Bytes} {identity : FileIdentity}
      {ws : List (InventoryEntry × Bytes)} : Written d entry identity bytes d₁ →
      Writings d₁ ws d' → Writings d ((entry, bytes) :: ws) d'

namespace Writings
variable {φ : Type} {d d' : Disk φ} {ws : List (InventoryEntry × Bytes)}

/-- A series of writes only adds files and changes bytes. -/
theorem extends_ (h : Writings d ws d') : d.Extends d' := by
  induction h with
  | nil hquiet => exact hquiet.extends_
  | cons hwritten _ ih => exact hwritten.extends_.trans ih

/-- No file is lost. -/
theorem fresh (h : Writings d ws d') {i : FileIdentity} (hi : d'.content i = none) :
    d.content i = none := by
  induction h with
  | nil hquiet => rwa [← hquiet.content]
  | @cons d d₁ d' entry bytes identity ws hwritten _ ih =>
    have hone := ih hi
    by_cases heq : i = identity
    · rw [heq, hwritten.sets.self] at hone
      cases hone
    · rwa [← hwritten.sets.of_ne heq]

/-- A file that has changed was filled: the one of a target, or a new one at a free target. The
induction is on the writes. A file may be written more than once, and the last write is what it
holds. -/
theorem changed (h : Writings d ws d')
    (hpresent : ∀ w ∈ ws, w.1.filesystem ≠ none → ∃ i, d.target w.1.path = some ⟨.file, i⟩)
    (i : FileIdentity) : d'.content i = d.content i ∨ ∃ w ∈ ws, d'.content i = some w.2 ∧
      d'.target w.1.path = some ⟨.file, i⟩ ∧
      (w.1.filesystem ≠ none → d.target w.1.path = some ⟨.file, i⟩) ∧
      (w.1.filesystem = none → d.target w.1.path = none ∧ d.content i = none) := by
  induction h with
  | nil hquiet => exact .inl (by rw [hquiet.content])
  | @cons d d₁ d' entry bytes identity ws hwritten hrest ih =>
    rw [List.forall_mem_cons] at hpresent
    have hextends := hwritten.extends_
    rcases ih fun w hw hfile => (hpresent.2 w hw hfile).imp fun j hj => hextends.target _ _ hj with
      hsame | ⟨w, hw, hcontent, htarget, hthere, hfree⟩
    · by_cases heq : i = identity
      · subst heq
        exact .inr ⟨_, List.mem_cons_self, by rw [hsame, hwritten.sets.self],
          hrest.extends_.target _ _ hwritten.target, hwritten.present, hwritten.absent⟩
      · exact .inl (by rw [hsame, hwritten.sets.of_ne heq])
    · refine .inr ⟨w, List.mem_cons_of_mem _ hw, hcontent, htarget, fun hfile => ?_, fun hfile => ?_⟩
      · obtain ⟨j, hj⟩ := hpresent.2 w hw hfile
        rw [hj, ← hextends.target _ _ hj, hthere hfile]
      · obtain ⟨hnone, hnew⟩ := hfree hfile
        refine ⟨hextends.absent hnone, ?_⟩
        by_cases heq : i = identity
        · rw [heq, hwritten.sets.self] at hnew
          cases hnew
        · rwa [← hwritten.sets.of_ne heq]

end Writings

section
variable {σ δ φ ε : Type} {fs : FileSystem σ δ φ} {access : AccessPolicy σ ε}
  {paths : ResolvedPaths} (W : Workspace fs access paths) {root : SourceRoot δ}

/-- What is written of an entry: everything, unless the outcome says that this write failed. -/
def WrittenOf {α : Type} (r : Except (PolicyFailure (CommitAccessFailure ε) CommitError) α)
    (w : InventoryEntry × Bytes) : Prop :=
  ∃ n, w.2 = (externalOutput w.1).bytes.take n ∧
    (w.2 = (externalOutput w.1).bytes ∨ CutShort w.1.path r)

/-- However far the loop over the outputs gets, it has filled files of the outputs. The induction is
on the outputs. The one it stops at may be written in part. -/
theorem commitExternals_spec (hroot : W.IsRoot root.directory) {entries : List InventoryEntry}
    {absentTargets completed : List FragmentPath} {s t : σ}
    {r : Except (PolicyFailure (CommitAccessFailure ε) CommitError) (List FragmentPath)}
    (h : commitExternals access (realFilesystem fs root) absentTargets completed
      (entries.map externalOutput) s = (r, t))
    (hpresent : ∀ entry ∈ entries, entry.filesystem ≠ none →
      ∃ i, (W.view s).target entry.path = some ⟨.file, i⟩) :
    ∃ ws, Writings (W.view s) ws (W.view t) ∧ (∀ w ∈ ws, w.1 ∈ entries ∧ WrittenOf r w) ∧
      ((∃ paths, r = .ok paths) →
        ws = entries.map fun entry => (entry, (externalOutput entry).bytes)) := by
  induction entries generalizing completed s with
  | nil =>
    cases h
    exact ⟨[], .nil (.refl _), by simp, fun _ => rfl⟩
  | cons entry entries ih =>
    rw [List.forall_mem_cons] at hpresent
    rw [List.map_cons, commitExternals, Run.bind_apply] at h
    cases hone : commitExternal access (realFilesystem fs root) absentTargets completed
      (externalOutput entry) s with
    | mk r₁ t₁ =>
    have hspec := commitExternal_spec W hroot hone hpresent.1
    rw [hone] at h
    cases r₁ with
    | error e =>
      cases h
      rcases hspec with ⟨-, hquiet⟩ | ⟨i, n, hwritten, hfull, -⟩
      · exact ⟨[], .nil hquiet, by simp, fun hr => by cases hr.choose_spec⟩
      · refine ⟨[(entry, _)], .cons hwritten (.nil (.refl _)), ?_, fun hr => by cases hr.choose_spec⟩
        rw [List.forall_mem_singleton]
        exact ⟨List.mem_cons_self, n, rfl, hfull.imp_right fun hcut => by
          obtain ⟨completed', destination, source, he⟩ := hcut
          exact ⟨completed', destination, source, congrArg _ (Except.error.inj he)⟩⟩
    | ok completed₁ =>
      rcases hspec with ⟨⟨e, he, -⟩, -⟩ | ⟨i, n, hwritten, hfull, -⟩
      · cases he
      have hbytes : (externalOutput entry).bytes.take n = (externalOutput entry).bytes := by
        rcases hfull with hfull | ⟨_, _, _, he⟩
        · exact hfull
        · cases he
      rw [hbytes] at hwritten
      obtain ⟨ws, hrest, hws, hall⟩ := ih h fun e he hfile =>
        (hpresent.2 e he hfile).imp fun j hj => hwritten.extends_.target _ _ hj
      refine ⟨(entry, (externalOutput entry).bytes) :: ws, .cons hwritten hrest, ?_, fun hr => ?_⟩
      · rw [List.forall_mem_cons]
        exact ⟨⟨List.mem_cons_self, n, hbytes.symm, .inl rfl⟩,
          fun w hw => ⟨List.mem_cons_of_mem _ (hws w hw).1, (hws w hw).2⟩⟩
      · rw [hall hr, List.map_cons]

/-- A write of the document writes a part of it, everything if the write returned. It is not written
at all if its access is refused. -/
theorem commitDocument_spec {completed : List FragmentPath} {bytes : Bytes} {s t : σ}
    {r : Except (PolicyFailure (CommitAccessFailure ε) CommitError) Unit}
    (h : commitDocument access (realFilesystem fs root) completed (some ⟨paths.document, bytes⟩) s =
      (r, t)) {i : FileIdentity} (hi : (W.view s).document = some i) :
    ((∃ e, r = .error e) ∧ (W.view s).Quiet (W.view t)) ∨
    (W.view s).Extends (W.view t) ∧ (W.view s).Writes (W.view t) i bytes (r = .ok ()) := by
  obtain ⟨hgrant, -⟩ := W.grant .write paths.document _ s rfl
  have hrun : (flatten (access.write paths.document (fs.write paths.document bytes))).mapError
      (commitFailure completed (.writeDocument paths.document)) s = (r, t) := h
  rw [Run.mapError_apply, AccessPolicy.write, flatten_around] at hrun
  cases hgranted : access.grant .write paths.document s with
  | mk granted u =>
  rw [hgranted] at hrun hgrant
  dsimp only at hgrant hrun
  cases granted with
  | error e =>
    cases hrun
    exact .inl ⟨⟨_, rfl⟩, by rw [hgrant]; exact .refl _⟩
  | ok _ =>
    dsimp only at hrun
    cases hwrite : fs.write paths.document bytes u with
    | mk result t' =>
    rw [hwrite] at hrun
    rw [← hgrant] at hi ⊢
    obtain ⟨hextends, hcases⟩ := W.writeDocument _ _ _ _ hwrite i hi
    cases result with
    | error e =>
      cases hrun
      rcases hcases with ⟨-, hcontent⟩ | ⟨n, hsets, -⟩
      · exact .inl ⟨⟨_, rfl⟩, hextends, hcontent⟩
      · exact .inr ⟨hextends, n, hsets, fun hr => by cases hr⟩
    | ok _ =>
      cases hrun
      rcases hcases with ⟨hne, -⟩ | ⟨n, hsets, hfull⟩
      · exact absurd rfl hne
      · exact .inr ⟨hextends, n, hsets, fun _ => hfull rfl⟩

/-- The document is filled, if there is something to fill it with. -/
def DocumentFilled {φ : Type} (d d' : Disk φ) (identity : FileIdentity) (output : Option Bytes)
    (returned : Prop) : Prop :=
  d.Extends d' ∧ (d'.content = d.content ∧ (returned → output = none) ∨
    ∃ bytes, output = some bytes ∧ d.Writes d' identity bytes returned)

/-- What a commit has done, however far it gets: files of outputs are filled, and then the
document. -/
theorem commitUsing_spec (hroot : W.IsRoot root.directory) {entries : List InventoryEntry}
    {absentTargets : List FragmentPath} {output : Option Bytes} {s t : σ}
    {r : Except (PolicyFailure (CommitAccessFailure ε) CommitError) Unit}
    (h : commitUsing access (realFilesystem fs root) (entries.map externalOutput) absentTargets
      (output.map fun bytes => ⟨paths.document, bytes⟩) s = (r, t))
    (hpresent : ∀ entry ∈ entries, entry.filesystem ≠ none →
      ∃ i, (W.view s).target entry.path = some ⟨.file, i⟩)
    {i : FileIdentity} (hi : (W.view s).document = some i) :
    ∃ ws d, Writings (W.view s) ws d ∧ DocumentFilled d (W.view t) i output (r = .ok ()) ∧
      (∀ w ∈ ws, w.1 ∈ entries ∧ WrittenOf r w) ∧
      (r = .ok () → ws = entries.map fun entry => (entry, (externalOutput entry).bytes)) := by
  unfold commitUsing at h
  rw [Run.bind_apply] at h
  cases horder : (operation (validateOrder (entries.map externalOutput)) :
      Run σ (PolicyFailure (CommitAccessFailure ε) CommitError) Unit) s with
  | mk ordered s' =>
  rw [horder] at h
  have hs : s' = s := (congrArg Prod.snd horder).symm
  cases ordered with
  | error e =>
    cases h
    rw [hs]
    exact ⟨[], _, .nil (.refl _), ⟨.refl _, .inl ⟨rfl, fun hr => by cases hr⟩⟩, by simp,
      fun hr => by cases hr⟩
  | ok _ =>
  dsimp only at h
  rw [hs, Run.bind_apply] at h
  cases hexternals : commitExternals access (realFilesystem fs root) absentTargets []
    (entries.map externalOutput) s with
  | mk r₁ t₁ =>
  obtain ⟨ws, hwritings, hws, hall⟩ := commitExternals_spec W hroot hexternals hpresent
  rw [hexternals] at h
  cases r₁ with
  | error e =>
    cases h
    refine ⟨ws, _, hwritings, ⟨.refl _, .inl ⟨rfl, fun hr => by cases hr⟩⟩, fun w hw => ?_,
      fun hr => by cases hr⟩
    obtain ⟨hmem, n, hn, hfull⟩ := hws w hw
    refine ⟨hmem, n, hn, hfull.imp_right fun hcut => ?_⟩
    obtain ⟨completed, destination, source, he⟩ := hcut
    exact ⟨completed, destination, source, congrArg _ (Except.error.inj he)⟩
  | ok completed =>
    have hws' : ∀ w ∈ ws, w.1 ∈ entries ∧ WrittenOf r w := by
      intro w hw
      obtain ⟨hmem, n, hn, hfull | ⟨_, _, _, he⟩⟩ := hws w hw
      · exact ⟨hmem, n, hn, .inl hfull⟩
      · cases he
    have hdone := hall ⟨completed, rfl⟩
    cases output with
    | none =>
      cases h
      exact ⟨ws, _, hwritings, ⟨.refl _, .inl ⟨rfl, fun _ => rfl⟩⟩, hws', fun _ => hdone⟩
    | some bytes =>
      rcases commitDocument_spec W h (hwritings.extends_.document i hi) with
        ⟨⟨e, rfl⟩, hquiet⟩ | ⟨hextends, hwrites⟩
      · exact ⟨ws, _, hwritings, ⟨hquiet.extends_, .inl ⟨hquiet.content, fun hr => by cases hr⟩⟩,
          hws', fun _ => hdone⟩
      · exact ⟨ws, _, hwritings, ⟨hextends, .inr ⟨bytes, rfl, hwrites⟩⟩, hws', fun _ => hdone⟩

end

end Zwirn.Sync
