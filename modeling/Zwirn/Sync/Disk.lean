import Zwirn.Lib.View
import Zwirn.Sync.Entries
import Zwirn.Sync.Stages

/-!
# Disks

A `Disk` is what a command sees of a filesystem: what its targets and its document lead to, and what
the files hold. `Workspace` collects how the operations of a filesystem look on it, whatever links
there are: lookups tell the truth, nothing that was found is lost, and an operation changes the file
it is about, at most. On a workspace discovery finds what the disk shows
(`discoverForDocument_observes`), and `Shows` says what that is.
-/

namespace Zwirn.Sync

open Lib Fragment Adls

/-- What targets, the document and handles lead to, and what the files hold. -/
structure Disk (φ : Type) where
  target : FragmentPath → Option Metadata
  document : Option FileIdentity
  handle : φ → Option Metadata
  content : FileIdentity → Option Bytes

namespace Disk
variable {φ : Type}

/-- What was found is found again. -/
structure Extends (d d' : Disk φ) : Prop where
  target : ∀ path metadata, d.target path = some metadata → d'.target path = some metadata
  document : ∀ identity, d.document = some identity → d'.document = some identity
  handle : ∀ file metadata, d.handle file = some metadata → d'.handle file = some metadata

/-- A disk extends itself. -/
theorem Extends.refl (d : Disk φ) : d.Extends d :=
  ⟨fun _ _ h => h, fun _ h => h, fun _ _ h => h⟩

/-- Growing twice is growing. -/
theorem Extends.trans {d d' d'' : Disk φ} (h : d.Extends d') (h' : d'.Extends d'') :
    d.Extends d'' :=
  ⟨fun path m hm => h'.target path m (h.target path m hm),
    fun i hi => h'.document i (h.document i hi),
    fun file m hm => h'.handle file m (h.handle file m hm)⟩

/-- What is not found was not found. -/
theorem Extends.absent {d d' : Disk φ} (h : d.Extends d') {path : FragmentPath}
    (hnone : d'.target path = none) : d.target path = none := by
  rw [Option.eq_none_iff_forall_ne_some]
  intro m hm
  rw [h.target path m hm] at hnone
  cases hnone

/-- One file holds some bytes, and the others what they held. -/
def Sets (d d' : Disk φ) (identity : FileIdentity) (bytes : Bytes) : Prop :=
  d'.content = Function.update d.content identity (some bytes)

/-- A file that was set has the new bytes. -/
theorem Sets.self {d d' : Disk φ} {identity : FileIdentity} {bytes : Bytes}
    (h : d.Sets d' identity bytes) : d'.content identity = some bytes := by
  rw [h, Function.update_self]

/-- The other files keep their bytes. -/
theorem Sets.of_ne {d d' : Disk φ} {i j : FileIdentity} {bytes : Bytes} (h : d.Sets d' i bytes)
    (hne : j ≠ i) : d'.content j = d.content j := by
  rw [h, Function.update_of_ne hne]

/-- What is set twice is what was set last. -/
theorem Sets.trans {d d' d'' : Disk φ} {i : FileIdentity} {bytes bytes' : Bytes}
    (h : d.Sets d' i bytes) (h' : d'.Sets d'' i bytes') : d.Sets d'' i bytes' := by
  rw [Sets, h', h, Function.update_idem]

/-- One file holds the beginning of some bytes, and all of them if the write returned. -/
def Writes (d d' : Disk φ) (identity : FileIdentity) (bytes : Bytes) (returned : Prop) : Prop :=
  ∃ n, d.Sets d' identity (bytes.take n) ∧ (returned → bytes.take n = bytes)

end Disk

section
variable {σ δ φ ε : Type}

/-- How the operations of a filesystem look on a disk. Of each operation it says what its success
tells of the disk, and what success and failure leave of the files. Every operation may fail, but
none changes a file that it does not name. -/
structure Workspace (fs : FileSystem σ δ φ) (access : AccessPolicy σ ε) (paths : ResolvedPaths) where
  view : σ → Disk φ
  /-- The handle is one of the source root. -/
  IsRoot : δ → Prop
  grant : ∀ kind path d, (access.grant kind path).Observes view d (fun _ => True) (fun _ => True)
  openRoot : ∀ d, (fs.openAmbientDir paths.sourceRoot).Observes view d IsRoot (fun _ => True)
  dirMetadata : ∀ dir path d,
    (fs.dirMetadata dir path).Observes view d (fun _ => True) (fun _ => True)
  targetMetadata : ∀ dir path d, IsRoot dir → (fs.dirMetadata dir (relativePath path)).Observes view d
    (fun m => d.target path = some m) (fun e => e.kind = .notFound → d.target path = none)
  targetOpen : ∀ dir path d, IsRoot dir → (fs.dirOpen dir (relativePath path)).Observes view d
    (fun file => ∃ m, d.target path = some m ∧ d.handle file = some m)
    (fun e => e.kind = .notFound → d.target path = none)
  documentOpen : ∀ d, (fs.fileOpen paths.document).Observes view d
    (fun file => ∃ m, d.document = some m.identity ∧ d.handle file = some m) (fun _ => True)
  fileMetadata : ∀ file d, (fs.fileMetadata file).Observes view d
    (fun m => ∀ m', d.handle file = some m' → m = m') (fun _ => True)
  readToEnd : ∀ file d, (fs.readToEnd file).Observes view d
    (fun bytes => ∀ m, d.handle file = some m → d.content m.identity = some bytes) (fun _ => True)
  createDirAll : ∀ dir path s, IsRoot dir → (view s).Extends (view (fs.dirCreateDirAll dir path s).2) ∧
    (view (fs.dirCreateDirAll dir path s).2).content = (view s).content
  /-- Exclusive creation makes an empty file where nothing was. -/
  createNew : ∀ dir path s r t, IsRoot dir →
    fs.dirOpenWith dir (relativePath path) ⟨true, false, true, false⟩ s = (r, t) →
      (view s).Extends (view t) ∧ match r with
        | .ok file => ∃ i, (view s).target path = none ∧ (view s).content i = none ∧
            (view t).target path = some ⟨.file, i⟩ ∧ (view t).handle file = some ⟨.file, i⟩ ∧
            (view s).Sets (view t) i []
        | .error _ => (view t).content = (view s).content
  /-- Opening a file with truncation empties it. -/
  truncate : ∀ dir path s r t, IsRoot dir →
    fs.dirOpenWith dir (relativePath path) ⟨true, true, false, true⟩ s = (r, t) →
      ∀ i, (view s).target path = some ⟨.file, i⟩ → (view s).Extends (view t) ∧ match r with
        | .ok file => (view t).handle file = some ⟨.file, i⟩ ∧ (view s).Sets (view t) i []
        | .error _ => (view t).content = (view s).content
  /-- An empty file gets what is written to it, as far as it is written. -/
  writeAll : ∀ file bytes s r t, fs.writeAll file bytes s = (r, t) →
    ∀ i, (view s).handle file = some ⟨.file, i⟩ → (view s).content i = some [] →
      (view s).Extends (view t) ∧ (view s).Writes (view t) i bytes (r = .ok ())
  /-- A write that cannot open the document leaves it as it is. -/
  writeDocument : ∀ bytes s r t, fs.write paths.document bytes s = (r, t) →
    ∀ i, (view s).document = some i → (view s).Extends (view t) ∧
      (r ≠ .ok () ∧ (view t).content = (view s).content ∨
        (view s).Writes (view t) i bytes (r = .ok ()))

end

/-! ## What a disk shows -/

/-- What is found at a target: nothing, or a regular file with a text. What is no regular file, or
holds no source, is found in neither way. -/
inductive Disk.Finds {φ : Type} (d : Disk φ) (path : FragmentPath) : Option CanonicalSource → Prop
  | absent : d.target path = none → d.Finds path none
  | present {identity : FileIdentity} {bytes : Bytes} {text : Str} {source : CanonicalSource} :
      d.target path = some ⟨.file, identity⟩ → d.content identity = some bytes →
      decode bytes = some text → CanonicalSource.tryFrom text = .ok source →
      d.Finds path (some source)

/-- What is found at a target is determined. The metadata, the content, the text and the source
follow from each other. -/
theorem Disk.Finds.unique {φ : Type} {d : Disk φ} {path : FragmentPath}
    {found found' : Option CanonicalSource} (h : d.Finds path found) (h' : d.Finds path found') :
    found' = found := by
  cases h with
  | absent hnone =>
    cases h' with
    | absent => rfl
    | present htarget => rw [hnone] at htarget; cases htarget
  | present htarget hcontent htext hsource =>
    cases h' with
    | absent hnone => rw [hnone] at htarget; cases htarget
    | present htarget' hcontent' htext' hsource' =>
      obtain rfl := (Metadata.mk.inj (Option.some.inj (htarget.symm.trans htarget'))).2
      obtain rfl := Option.some.inj (hcontent.symm.trans hcontent')
      obtain rfl := Option.some.inj (htext.symm.trans htext')
      rw [Except.ok.inj (hsource.symm.trans hsource')]

/-- The identity of the file that is at a target. -/
def Disk.identity {φ : Type} (d : Disk φ) (path : FragmentPath) : Option FileIdentity :=
  (d.target path).map Metadata.identity

section
variable {δ φ : Type}

/-- One round of the loop over the targets can make this entry, with these identities seen before.
Its file is not the document and was not met before, under whatever name. -/
structure Admits (d : Disk φ) (root : SourceRoot δ) (origin : Option DocumentOrigin)
    (seen : List FileIdentity) (f : DiscoveredFragment) (entry : InventoryEntry) : Prop where
  isEntry : IsEntry root f entry
  found : d.Finds entry.path entry.filesystem
  named : ∀ o ∈ origin, o.path ≠ entry.target
  apart : ∀ i ∈ d.identity entry.path, i ∉ seen ∧ ∀ o ∈ origin, o.identity ≠ i

/-- The loop over the targets can make these entries, with these identities seen before. The entries
are those of the fragments, in order, and no two of them have the same file. -/
structure Lists (d : Disk φ) (root : SourceRoot δ) (origin : Option DocumentOrigin)
    (seen : List FileIdentity) (ds : List DiscoveredFragment) (entries : List InventoryEntry) :
    Prop where
  aligned : List.Forall₂ (IsEntry root) ds entries
  found : ∀ entry ∈ entries, d.Finds entry.path entry.filesystem
  named : ∀ entry ∈ entries, ∀ o ∈ origin, o.path ≠ entry.target
  distinct : (entries.filterMap fun entry => d.identity entry.path).Nodup
  apart : ∀ entry ∈ entries, ∀ i ∈ d.identity entry.path,
    i ∉ seen ∧ ∀ o ∈ origin, o.identity ≠ i

variable {d : Disk φ} {root : SourceRoot δ} {origin : Option DocumentOrigin}
  {seen : List FileIdentity} {f : DiscoveredFragment} {ds : List DiscoveredFragment}
  {entry : InventoryEntry} {entries : List InventoryEntry}

/-- No fragments have no entries. -/
theorem Lists.nil : Lists d root origin seen [] [] :=
  ⟨.nil, by simp, by simp, by simp, by simp⟩

/-- One more entry, with the identity of its file. The conditions on all entries are those on the
first one and on the others, with its identity among those that were seen. -/
theorem lists_cons : Lists d root origin seen (f :: ds) (entry :: entries) ↔
    Admits d root origin seen f entry ∧
      Lists d root origin ((d.identity entry.path).toList ++ seen) ds entries := by
  have hmem : ∀ i, i ∈ entries.filterMap (fun entry => d.identity entry.path) ↔
      ∃ entry ∈ entries, i ∈ d.identity entry.path := by simp
  have hcons : (entry :: entries).filterMap (fun entry => d.identity entry.path) =
      (d.identity entry.path).toList ++ entries.filterMap fun entry => d.identity entry.path := by
    rw [List.filterMap_cons]
    cases d.identity entry.path <;> rfl
  have hone : ∀ o : Option FileIdentity, o.toList.Nodup := by
    intro o
    cases o <;> simp
  refine ⟨fun h => ?_, fun h => ?_⟩
  · obtain ⟨hentries, hfound, hnamed, hdistinct, hapart⟩ := h
    rw [hcons, List.nodup_append] at hdistinct
    rw [List.forall_mem_cons] at hfound hnamed hapart
    rw [List.forall₂_cons] at hentries
    refine ⟨⟨hentries.1, hfound.1, hnamed.1, hapart.1⟩, hentries.2, hfound.2, hnamed.2,
      hdistinct.2.1, fun entry' hentry' i hi => ⟨?_, (hapart.2 entry' hentry' i hi).2⟩⟩
    rw [List.mem_append, not_or]
    refine ⟨fun hseen => ?_, (hapart.2 entry' hentry' i hi).1⟩
    exact hdistinct.2.2 i hseen i ((hmem i).2 ⟨entry', hentry', hi⟩) rfl
  · obtain ⟨⟨hentry, hfinds, hname, hother⟩, hentries, hfound, hnamed, hdistinct, hapart⟩ := h
    refine ⟨.cons hentry hentries, List.forall_mem_cons.2 ⟨hfinds, hfound⟩,
      List.forall_mem_cons.2 ⟨hname, hnamed⟩, ?_, List.forall_mem_cons.2 ⟨hother, fun e he i hi => ?_⟩⟩
    · rw [hcons, List.nodup_append]
      refine ⟨hone _, hdistinct, fun i hi j hj heq => ?_⟩
      subst heq
      obtain ⟨entry', hentry', hi'⟩ := (hmem i).1 hj
      exact (hapart entry' hentry' i hi').1 (List.mem_append_left _ hi)
    · obtain ⟨hseen, horigin⟩ := hapart e he i hi
      exact ⟨fun hmem => hseen (List.mem_append_right _ hmem), horigin⟩

/-- What can be listed can be listed beneath another handle of the source root. -/
theorem Lists.of_path {root' : SourceRoot δ} (h : Lists d root origin seen ds entries)
    (hroot : root.path = root'.path) : Lists d root' origin seen ds entries := by
  refine ⟨h.aligned.imp fun f entry hentry => ?_, h.found, h.named, h.distinct, h.apart⟩
  refine ⟨hentry.nodeIndex, hentry.path, hentry.embedded, hentry.baseline, ?_⟩
  rw [hentry.target, SourceRoot.namedPath, SourceRoot.namedPath, hroot]

/-- The entries are determined. The induction is on the fragments, with what was seen before. What
is found at a target is determined by the disk, and with it the entry. -/
theorem Lists.unique {entries' : List InventoryEntry} (h : Lists d root origin seen ds entries)
    (h' : Lists d root origin seen ds entries') : entries' = entries := by
  induction ds generalizing entries entries' seen with
  | nil =>
    cases h.aligned
    cases h'.aligned
    rfl
  | cons f ds ih =>
    cases entries with
    | nil => cases h.aligned
    | cons entry entries =>
      cases entries' with
      | nil => cases h'.aligned
      | cons entry' entries' =>
        obtain ⟨⟨hentry, hfound, -, -⟩, hrest⟩ := lists_cons.1 h
        obtain ⟨⟨hentry', hfound', -, -⟩, hrest'⟩ := lists_cons.1 h'
        have hpath : entry'.path = entry.path := hentry'.path.trans hentry.path.symm
        rw [hpath] at hfound' hrest'
        rw [ih hrest hrest']
        obtain ⟨nodeIndex, path, embedded, baseline, target, filesystem⟩ := entry
        obtain ⟨nodeIndex', path', embedded', baseline', target', filesystem'⟩ := entry'
        obtain ⟨h₁, h₂, h₃, h₄, h₅⟩ := hentry
        obtain ⟨h₁', h₂', h₃', h₄', h₅'⟩ := hentry'
        simp only [List.cons.injEq, InventoryEntry.mk.injEq, and_true]
        exact ⟨h₁'.trans h₁.symm, h₂'.trans h₂.symm, h₃'.trans h₃.symm, h₄'.trans h₄.symm,
          h₅'.trans (h₅.trans rfl).symm, hfound.unique hfound'⟩

end

/-! ## Discovery -/

/-- The filesystem did not give what was asked of it. -/
def InventoryError.OfIo : InventoryError → Prop
  | .documentInput _ _ | .sourceRoot _ _ | .fragmentParent _ _ _ | .targetAccess _ _ _
  | .targetRead _ _ _ => True
  | _ => False

/-- The failure is a refused access, or an error in `P`. -/
def RefusedOr {ε ε' : Type} (P : ε' → Prop) : PolicyFailure ε ε' → Prop
  | .access _ => True
  | .operation e => P e

/-- What was read of a target. -/
def Disk.Reads {φ : Type} (d : Disk φ) (path : FragmentPath) : Option ExistingInput → Prop
  | none => d.target path = none
  | some input => d.target path = some ⟨.file, input.identity⟩ ∧
      d.content input.identity = some input.bytes

section
variable {σ δ φ ε ε' α : Type} {fs : FileSystem σ δ φ} {access : AccessPolicy σ ε}
  {paths : ResolvedPaths} {d : Disk φ} {root : SourceRoot δ} {origin : Option DocumentOrigin}
  (W : Workspace fs access paths)

/-- A named access observes what its body does. Granting leaves what is shown, and a refusal is a
failure of its own kind. -/
theorem Workspace.flatten_observes {Q : α → Prop} {P : ε' → Prop} {body : Run σ ε' α}
    (h : body.Observes W.view d Q P) (kind : AccessKind) (path : Path) :
    (flatten (access.around kind path body)).Observes W.view d Q (RefusedOr P) := by
  intro s hs
  obtain ⟨hview, -⟩ := W.grant kind path d s hs
  rw [flatten_around]
  split
  · next t hgrant =>
    rw [hgrant] at hview
    obtain ⟨hview, hends⟩ := h t hview
    refine ⟨hview, ?_⟩
    cases hr : (body t).1 with
    | ok a => rw [hr] at hends; exact hends
    | error e => rw [hr] at hends; exact hends
  · next e t hgrant =>
    rw [hgrant] at hview
    exact ⟨hview, trivial⟩

/-- An ordinary step observes nothing, and its failure is passed on. -/
theorem operation_observes {view : σ → Disk φ} {Q : α → Prop} {P : ε' → Prop} {x : Except ε' α}
    (hok : ∀ a, x = .ok a → Q a) (herror : ∀ e, x = .error e → P e) :
    (operation x : Run σ (PolicyFailure ε ε') α).Observes view d Q (RefusedOr P) := by
  cases x with
  | ok a => exact .pure (hok a rfl)
  | error e => exact .fail (herror e rfl)

/-- A directory is checked without a change of the disk. A missing one is no failure. -/
theorem validateOptionalDirectory_observes (path : Path) :
    (validateOptionalDirectory fs root path).Observes W.view d (fun _ => True) fun _ => True := by
  refine .bind (W.dirMetadata root.directory path d).attempt fun r _ => ?_
  cases r with
  | ok metadata =>
    dsimp only
    split
    · exact .pure trivial
    · exact .fail trivial
  | error e =>
    dsimp only
    split
    · exact .pure trivial
    · exact .fail trivial

/-- The directories above a target are checked without a change, and only the filesystem can fail
there. -/
theorem validateParentsFrom_observes (path : FragmentPath) (parent segments : List Str) :
    (validateParentsFrom fs root path parent segments).Observes W.view d (fun _ => True)
      InventoryError.OfIo := by
  induction segments generalizing parent with
  | nil => exact .pure trivial
  | cons segment segments ih =>
    refine .bind ((validateOptionalDirectory_observes W _).mapError fun _ _ => ?_) fun _ _ => ih _
    trivial

/-- So is all that lies above a target. -/
theorem validateParents_observes (path : FragmentPath) :
    (validateParents fs root path).Observes W.view d (fun _ => True) InventoryError.OfIo := by
  unfold validateParents
  split
  · exact validateParentsFrom_observes W path _ _
  · exact .pure trivial

/-- What is read of an opened target is what the disk holds. It fails for the filesystem, or for
what the disk shows there. -/
theorem readTarget_observes {path : FragmentPath} {target : Path} {file : φ} {m : Metadata}
    (htarget : d.target path = some m) (hhandle : d.handle file = some m) :
    (readTarget fs path target file).Observes W.view d (d.Reads path)
      fun e => e.OfIo ∨ ¬ ∃ found, d.Finds path found := by
  refine .bind ((W.fileMetadata file d).mapError fun _ _ => .inl trivial) fun m' hm' => ?_
  obtain rfl := hm' m hhandle
  split
  · next htype =>
    refine .fail (.inr fun h => ?_)
    obtain ⟨found, hfound⟩ := h
    cases hfound with
    | absent hnone => rw [hnone] at htarget; cases htarget
    | present hfile =>
      rw [htarget] at hfile
      rw [Option.some.inj hfile] at htype
      exact htype rfl
  · next htype =>
    refine .bind ((W.readToEnd file d).mapError fun _ _ => .inl trivial) fun bytes hbytes => ?_
    refine .pure ⟨?_, hbytes m' hhandle⟩
    rw [htarget, ← not_not.1 htype]

/-- What is read of a target is what is there. The cases are the answers of the probe and of the
opening. -/
theorem readOptionalTarget_observes (hroot : W.IsRoot root.directory) (path : FragmentPath)
    (target : Path) : (readOptionalTarget fs root path target).Observes W.view d (d.Reads path)
      fun e => e.OfIo ∨ ¬ ∃ found, d.Finds path found := by
  refine .bind (W.targetMetadata root.directory path d hroot).attempt fun r hr => ?_
  cases r with
  | error e =>
    dsimp only
    split
    · next hkind => exact .pure (hr hkind)
    · exact .fail (.inl trivial)
  | ok m =>
    have htarget : d.target path = some m := hr
    dsimp only
    split
    · next htype =>
      refine .fail (.inr fun h => ?_)
      obtain ⟨found, hfound⟩ := h
      cases hfound with
      | absent hnone => rw [hnone] at htarget; cases htarget
      | present hfile =>
        rw [htarget] at hfile
        rw [Option.some.inj hfile] at htype
        exact htype rfl
    · refine .bind (W.targetOpen root.directory path d hroot).attempt fun r hr => ?_
      cases r with
      | error e =>
        dsimp only
        split
        · next hkind => exact .pure (hr hkind)
        · exact .fail (.inl trivial)
      | ok file =>
        obtain ⟨m', htarget', hhandle⟩ := hr
        exact readTarget_observes W htarget' hhandle

/-- One round of the loop makes the entry that the disk admits, or the filesystem fails it. Each
check of the code is one of the conditions of `Admits`, and a failed check shows that no entry is
admitted. -/
theorem discoverEntry_observes (hroot : W.IsRoot root.directory)
    {identities : OrdMap FileIdentity FragmentPath} {seen : List FileIdentity}
    (hseen : ∀ i, i ∈ identities.keys ↔ i ∈ seen) (f : DiscoveredFragment) :
    (discoverEntry fs access root origin identities f).Observes W.view d
      (fun r => Admits d root origin seen f r.1 ∧
        ∀ i, i ∈ r.2.keys ↔ i ∈ (d.identity r.1.path).toList ++ seen)
      (RefusedOr fun e => e.OfIo ∨ ¬ ∃ entry, Admits d root origin seen f entry) := by
  refine .bind ((validateParents_observes W f.path).mapError fun _ he => .inl he) fun _ _ => ?_
  refine .bind (Q := fun _ => ∀ o ∈ origin, o.path ≠ root.namedPath (relativePath f.path))
    (operation_observes (fun _ h => ?_) fun e h => ?_) fun _ hnamed => ?_
  · rw [require_eq_ok] at h
    intro o ho heq
    exact h (by rw [Option.mem_def.1 ho]; simpa using heq)
  · refine .inr fun hadmits => ?_
    obtain ⟨entry, hentry⟩ := hadmits
    rw [require_of] at h
    · cases h
    · intro hany
      cases origin with
      | none => cases hany
      | some o =>
        refine hentry.named o rfl ?_
        rw [hentry.isEntry.target]
        simpa using hany
  · refine .bind ((W.flatten_observes (readOptionalTarget_observes W hroot f.path _) .read _).mono
      (fun _ h => h) fun e he => ?_) fun input hinput => ?_
    · cases e with
      | access e => trivial
      | operation e =>
        refine he.imp_right fun hnone hadmits => hnone ?_
        obtain ⟨entry, hentry⟩ := hadmits
        exact ⟨entry.filesystem, hentry.isEntry.path ▸ hentry.found⟩
    · cases input with
      | none =>
        have hnone : d.identity f.path = none := by rw [Disk.identity, show _ = none from hinput]; rfl
        refine .pure ⟨⟨⟨rfl, rfl, rfl, rfl, rfl⟩, .absent hinput, hnamed, ?_⟩, fun i => ?_⟩
        · intro i hi
          rw [hnone] at hi
          cases hi
        · rw [hnone]
          exact hseen i
      | some input =>
        obtain ⟨htarget, hcontent⟩ := hinput
        have hidentity : d.identity f.path = some input.identity := by
          rw [Disk.identity, htarget]
          rfl
        refine .bind (Q := fun source =>
          acceptInput origin f.path _ identities input = .ok source) (operation_observes
            (fun _ h => h) fun e h => .inr fun hadmits => ?_) fun source hsource => ?_
        · obtain ⟨entry, hentry⟩ := hadmits
          have hfound := hentry.found
          have hapart := hentry.apart
          rw [hentry.isEntry.path] at hfound hapart
          obtain ⟨hnew, hother⟩ := hapart _ hidentity
          generalize entry.filesystem = found at hfound
          cases hfound with
          | absent hnone => rw [hnone] at htarget; cases htarget
          | present htarget' hcontent' htext hsource =>
            obtain rfl := (Metadata.mk.inj (Option.some.inj (htarget.symm.trans htarget'))).2
            obtain rfl := Option.some.inj (hcontent.symm.trans hcontent')
            rw [acceptInput_eq_ok.2 ⟨hother, fun hmem => hnew ((hseen _).1 hmem), _, htext,
              hsource⟩] at h
            cases h
        · obtain ⟨hother, hnew, text, htext, hsource⟩ := acceptInput_eq_ok.1 hsource
          refine .pure ⟨⟨⟨rfl, rfl, rfl, rfl, rfl⟩, .present htarget hcontent htext hsource, hnamed,
            ?_⟩, fun i => ?_⟩
          · intro i hi
            rw [hidentity] at hi
            obtain rfl := Option.some.inj hi
            exact ⟨fun hmem => hnew ((hseen _).2 hmem), hother⟩
          · rw [hidentity, OrdMap.mem_keys_insert, hseen, Option.toList_some, List.singleton_append,
              List.mem_cons]

/-- The loop makes the entries that the disk lists, or the filesystem fails it. The induction is on
the fragments, with the identities that were seen. -/
theorem discoverEntries_observes (hroot : W.IsRoot root.directory)
    {identities : OrdMap FileIdentity FragmentPath} {seen : List FileIdentity}
    (hseen : ∀ i, i ∈ identities.keys ↔ i ∈ seen) (ds : List DiscoveredFragment) :
    (discoverEntries fs access root origin identities ds).Observes W.view d
      (Lists d root origin seen ds)
      (RefusedOr fun e => e.OfIo ∨ ¬ ∃ entries, Lists d root origin seen ds entries) := by
  induction ds generalizing identities seen with
  | nil => exact .pure .nil
  | cons f ds ih =>
    refine .bind ((discoverEntry_observes W hroot hseen f).mono (fun _ h => h) fun e he => ?_)
      fun r hr => ?_
    · cases e with
      | access e => trivial
      | operation e =>
        refine he.imp_right fun hnone hlists => hnone ?_
        obtain ⟨entries, hentries⟩ := hlists
        cases entries with
        | nil => cases hentries.aligned
        | cons entry entries => exact ⟨entry, (lists_cons.1 hentries).1⟩
    · obtain ⟨hadmits, hkeys⟩ := hr
      refine .bind ((ih hkeys).mono (fun _ h => h) fun e he => ?_) fun entries hentries => ?_
      · cases e with
        | access e => trivial
        | operation e =>
          refine he.imp_right fun hnone hlists => hnone ?_
          obtain ⟨entries, hentries⟩ := hlists
          cases entries with
          | nil => cases hentries.aligned
          | cons entry entries =>
            obtain ⟨hentry, hrest⟩ := lists_cons.1 hentries
            refine ⟨entries, ?_⟩
            have hpath : entry.path = r.1.path :=
              hentry.isEntry.path.trans hadmits.isEntry.path.symm
            rwa [hpath] at hrest
      · exact .pure (lists_cons.2 ⟨hadmits, hentries⟩)

/-- What discovery makes of the bytes of a document. -/
def Inventories (d : Disk φ) (root : SourceRoot δ) (origin : Option DocumentOrigin) (bytes : Bytes)
    (entries : List InventoryEntry) : Prop :=
  ∃ document ds, Document.parse 1 bytes = .ok document ∧ DocumentDiscovered document.sources ds ∧
    Lists d root origin [] ds entries

omit W in
/-- Discovery beneath another handle of the source root makes the same. -/
theorem Inventories.unique {root' : SourceRoot δ} (hroot : root'.path = root.path) {bytes : Bytes}
    {entries entries' : List InventoryEntry} (h : Inventories d root origin bytes entries)
    (h' : Inventories d root' origin bytes entries') : entries' = entries := by
  obtain ⟨document, ds, hdocument, hds, hlists⟩ := h
  obtain ⟨document', ds', hdocument', hds', hlists'⟩ := h'
  obtain rfl := Except.ok.inj (hdocument.symm.trans hdocument')
  obtain rfl := Except.ok.inj ((discoverFragments_eq_ok.2 hds).symm.trans
    (discoverFragments_eq_ok.2 hds'))
  exact hlists.unique (hlists'.of_path hroot)

/-- The discovery of a document's bytes gives the inventory of the disk. If it fails, then the
filesystem failed or there is no such inventory. -/
theorem discoverInner_observes (hroot : W.IsRoot root.directory) (bytes : Bytes) :
    (Inventory.discoverInner fs bytes root origin access).Observes W.view d
      (fun inventory => inventory.sourceRoot = root ∧ inventory.documentBytes = bytes ∧
        Inventories d root origin bytes inventory.entries)
      (RefusedOr fun e => e.OfIo ∨ ¬ ∃ entries, Inventories d root origin bytes entries) := by
  refine .bind (Q := fun document => Document.parse 1 bytes = .ok document)
    (operation_observes (fun _ h => mapError_eq_ok.1 h) fun e h => .inr fun hlisted => ?_)
      fun document hdocument => ?_
  · obtain ⟨_, document, _, hdocument, -, -⟩ := hlisted
    rw [hdocument] at h
    cases h
  refine .bind (Q := fun ds => DocumentDiscovered document.sources ds)
    (operation_observes (fun _ h => discoverFragments_eq_ok.1 h) fun e h => .inr fun hlisted => ?_)
      fun ds hds => ?_
  · obtain ⟨_, document', ds, hdocument', hds, -⟩ := hlisted
    obtain rfl := Except.ok.inj (hdocument.symm.trans hdocument')
    rw [discoverFragments_eq_ok.2 hds] at h
    cases h
  refine .bind
    ((@discoverEntries_observes _ _ _ _ _ _ _ d _ origin W hroot .empty [] (fun _ => .rfl) ds).mono
      (fun _ h => h) fun e he => ?_) fun entries hentries => ?_
  · cases e with
    | access e => trivial
    | operation e =>
      refine he.imp_right fun hnone hlisted => hnone ?_
      obtain ⟨entries, document', ds', hdocument', hds', hlists⟩ := hlisted
      obtain rfl := Except.ok.inj (hdocument.symm.trans hdocument')
      obtain rfl := Except.ok.inj ((discoverFragments_eq_ok.2 hds).symm.trans
        (discoverFragments_eq_ok.2 hds'))
      exact ⟨entries, hlists⟩
  · exact .pure ⟨rfl, rfl, document, ds, hdocument, hds, hentries⟩

/-- What a disk shows of the document and the targets. Discovery returns such an inventory, or the
filesystem fails it. -/
structure Workspace.Shows (d : Disk φ) (inventory : Inventory δ) : Prop where
  path : inventory.sourceRoot.path = paths.sourceRoot
  isRoot : W.IsRoot inventory.sourceRoot.directory
  listed : ∃ identity, d.document = some identity ∧
    d.content identity = some inventory.documentBytes ∧
    Inventories d inventory.sourceRoot (some ⟨paths.document, identity⟩) inventory.documentBytes
      inventory.entries

/-- Discovery finds what the disk shows, or the filesystem fails it. The source root, the document
and its bytes are observed first, and then the entries. -/
theorem discoverForDocument_observes :
    (Inventory.discoverForDocument fs paths.sourceRoot paths.document access).Observes W.view d
      (W.Shows d) (RefusedOr fun e => e.OfIo ∨ ¬ ∃ inventory, W.Shows d inventory) := by
  have hopen : (Inventory.openSourceRoot fs paths.sourceRoot).Observes W.view d
      (fun root => root.path = paths.sourceRoot ∧ W.IsRoot root.directory)
      InventoryError.OfIo := by
    refine Run.Observes.mapError (P := fun _ => True) ?_ fun _ _ => trivial
    exact .bind (W.openRoot d) fun dir hdir => .pure ⟨rfl, hdir⟩
  have hread : (readDocument fs paths.document).Observes W.view d
      (fun input => d.document = some input.identity ∧
        d.content input.identity = some input.bytes) InventoryError.OfIo := by
    refine .bind ((W.documentOpen d).mapError fun _ _ => trivial) fun file hfile => ?_
    obtain ⟨m, hdocument, hhandle⟩ := hfile
    refine .bind ((W.fileMetadata file d).mapError fun _ _ => trivial) fun m' hm' => ?_
    obtain rfl := hm' m hhandle
    refine .bind ((W.readToEnd file d).mapError fun _ _ => trivial) fun bytes hbytes => ?_
    exact .pure ⟨hdocument, hbytes m' hhandle⟩
  refine .bind (hopen.mapError fun _ he => .inl he) fun root hroot => ?_
  refine .bind ((W.flatten_observes hread .read _).mono (fun _ h => h) fun e he => ?_)
    fun input hinput => ?_
  · cases e with
    | access e => trivial
    | operation e => exact .inl he
  obtain ⟨hdocument, hcontent⟩ := hinput
  refine (discoverInner_observes W hroot.2 input.bytes).mono (fun inventory h => ?_) fun e he => ?_
  · obtain ⟨rfl, hbytes, hlisted⟩ := h
    exact ⟨hroot.1, hroot.2, input.identity, hdocument, hbytes ▸ hcontent, hbytes ▸ hlisted⟩
  · cases e with
    | access e => trivial
    | operation e =>
      refine he.imp_right fun hnone hshows => hnone ?_
      obtain ⟨inventory, hpath, -, identity, hdocument', hcontent', document, ds, hparse, hds,
        hlists⟩ := hshows
      obtain rfl := Option.some.inj (hdocument.symm.trans hdocument')
      obtain hbytes := Option.some.inj (hcontent.symm.trans hcontent')
      rw [hbytes]
      exact ⟨_, document, ds, hparse, hds, hlists.of_path (hpath.trans hroot.1.symm)⟩

omit W in
/-- A disk shows one inventory only, up to the handle of the source root. -/
theorem Workspace.Shows.unique {W : Workspace fs access paths} {inventory inventory' : Inventory δ}
    (h : W.Shows d inventory) (h' : W.Shows d inventory') :
    inventory'.documentBytes = inventory.documentBytes ∧
      inventory'.entries = inventory.entries := by
  obtain ⟨hpath, -, identity, hdocument, hcontent, hlisted⟩ := h
  obtain ⟨hpath', -, identity', hdocument', hcontent', hlisted'⟩ := h'
  obtain rfl := Option.some.inj (hdocument.symm.trans hdocument')
  have hbytes := Option.some.inj (hcontent'.symm.trans hcontent)
  refine ⟨hbytes, ?_⟩
  rw [hbytes] at hlisted'
  exact hlisted.unique (hpath'.trans hpath.symm) hlisted'

end

end Zwirn.Sync
