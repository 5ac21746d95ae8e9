import Zwirn.Sync.Settle
import Zwirn.Sync.TreeDisk

/-!
# What a command may overwrite

However a command ends, a file has changed only if it is the document, or the file of a selected
fragment that the operation may overwrite or create, and a fragment of the new document has another
source only if it is a selected one that the operation may replace (`executeWithAccess_guarded`).
-/

namespace Zwirn.Sync

open Lib Fragment Adls

/-- Only a command with `--force` has a forced action, and it is the command's own. -/
theorem Operation.forcedAction_eq_some {op : Operation} {action : Action} :
    op.forcedAction = some action ↔
      op = .embed true ∧ action = .embed ∨ op = .extract true ∧ action = .extract := by
  cases op with
  | sync => simp [forcedAction]
  | embed force => cases force <;> simp [forcedAction, eq_comm]
  | extract force => cases force <;> simp [forcedAction, eq_comm]

section
variable [Sha256]

/-- An explicit selection of conflicts. -/
def OnConflicts (selection : SelectionKind) (selected : List InventoryEntry) : Prop :=
  selection = .explicit ∧ selected ≠ [] ∧ ∀ entry ∈ selected,
    (classify entry.embedded entry.baseline entry.filesystem).IsConflict

/-- The operation may overwrite the file of the entry. -/
def MayOverwrite (op : Operation) (selection : SelectionKind) (selected : List InventoryEntry)
    (entry : InventoryEntry) (file : CanonicalSource) : Prop :=
  (op = .extract false ∨ op = .sync) ∧ entry.baseline = some (.fromSource file) ∧
      entry.embedded ≠ file ∨
    op = .extract true ∧ OnConflicts selection selected

/-- The operation may create the file of the entry. -/
def MayCreate (op : Operation) (selection : SelectionKind) (entry : InventoryEntry) : Prop :=
  (op = .extract false ∨ op = .sync) ∧ entry.baseline = none ∨
    op = .extract false ∧ selection = .explicit

/-- The operation may replace the embedded source of the entry. -/
def MayReplace (op : Operation) (selection : SelectionKind) (selected : List InventoryEntry)
    (entry : InventoryEntry) : Prop :=
  (op = .embed false ∨ op = .sync) ∧ entry.baseline = some (.fromSource entry.embedded) ∨
    op = .embed true ∧ OnConflicts selection selected

section
variable {op : Operation} {selection : SelectionKind} {selected : List InventoryEntry}
  {entry : InventoryEntry}

/-- What is extracted over a file may be. The cases are those of the table: a file without changes
since the last agreement, or force. -/
theorem mayOverwrite_of_extract (hforced : ForcedOnConflicts op selection selected)
    (h : (decideEntry op selection entry).2 = .act .extract) {file : CanonicalSource}
    (hfile : entry.filesystem = some file) : MayOverwrite op selection selected entry file := by
  have hclass := classified entry.embedded entry.baseline entry.filesystem
  have hdecided := decided op selection (classify entry.embedded entry.baseline entry.filesystem)
  rw [show decision op selection _ = _ from h] at hdecided
  rw [hfile] at hclass hdecided
  generalize classify entry.embedded entry.baseline (some file) = c at hclass hdecided
  generalize hbaseline : entry.baseline = baseline at hclass
  cases hdecided with
  | forced haction =>
    obtain ⟨-, haction'⟩ | ⟨hop, -⟩ := Operation.forcedAction_eq_some.1 haction
    · cases haction'
    · exact .inr ⟨hop, hforced (by rw [haction]; simp)⟩
  | absent _ => cases hclass
  | missing _ _ => cases hclass
  | extract hop =>
    cases hclass with
    | extract hne _ => exact .inl ⟨hop, hbaseline, hne.symm⟩

/-- What is extracted to a new file may be. Where there is no file, a fragment is extracted if it
was never adopted, or if it is named. -/
theorem mayCreate_of_extract (hforced : ForcedOnConflicts op selection selected)
    (hentry : entry ∈ selected) (h : (decideEntry op selection entry).2 = .act .extract)
    (hfile : entry.filesystem = none) : MayCreate op selection entry := by
  have hclass := classified entry.embedded entry.baseline entry.filesystem
  have hdecided := decided op selection (classify entry.embedded entry.baseline entry.filesystem)
  have hconflict : op.forcedAction ≠ none →
      (classify entry.embedded entry.baseline entry.filesystem).IsConflict :=
    fun haction => (hforced haction).2.2 entry hentry
  rw [show decision op selection _ = _ from h] at hdecided
  rw [hfile] at hclass hdecided hconflict
  generalize classify entry.embedded entry.baseline none = c at hclass hdecided hconflict
  generalize hbaseline : entry.baseline = baseline at hclass
  cases hdecided with
  | forced haction =>
    rcases hconflict (by rw [haction]; simp) with rfl | rfl <;> cases hclass
  | absent hop =>
    cases hclass with
    | absent => exact .inl ⟨hop, hbaseline⟩
  | missing hop hselection => exact .inr ⟨hop, hselection⟩
  | extract hop => cases hclass

/-- What is embedded may be. The embedded text is without changes since the last agreement, or there
is force. -/
theorem mayReplace_of_embed (hforced : ForcedOnConflicts op selection selected)
    (h : (decideEntry op selection entry).2 = .act .embed) :
    MayReplace op selection selected entry := by
  have hclass := classified entry.embedded entry.baseline entry.filesystem
  have hdecided := decided op selection (classify entry.embedded entry.baseline entry.filesystem)
  rw [show decision op selection _ = _ from h] at hdecided
  generalize classify entry.embedded entry.baseline entry.filesystem = c at hclass hdecided
  generalize hbaseline : entry.baseline = baseline at hclass
  generalize entry.filesystem = file at hclass
  cases hdecided with
  | forced haction =>
    obtain ⟨hop, -⟩ | ⟨-, haction'⟩ := Operation.forcedAction_eq_some.1 haction
    · exact .inr ⟨hop, hforced (by rw [haction]; simp)⟩
    · cases haction'
  | embed hop =>
    cases hclass with
    | embed _ _ => exact .inl ⟨hop, hbaseline⟩

/-- A source that the updates of a node change is replaced by the one of the file. A record keeps
the source, so the update is a replacement, and its source is that of the file. -/
theorem replaces_of_wanted {ds : List (InventoryEntry × Decision)} {nodeIndex : Nat}
    {f : FragmentView} (h : (f.wanted (updatesAt ds nodeIndex)).source ≠ f.source) :
    ∃ d ∈ ds, d.1.nodeIndex = nodeIndex ∧ d.1.path = f.path ∧ d.2 = .act .embed ∧
      ∃ file, d.1.filesystem = some file ∧
        (f.wanted (updatesAt ds nodeIndex)).source = file.value := by
  have hwanted : f.wanted (updatesAt ds nodeIndex) =
    f.updated (wantedSource (updatesAt ds nodeIndex) f.path) := rfl
  cases hrequested : wantedSource (updatesAt ds nodeIndex) f.path with
  | none =>
    rw [hwanted, hrequested] at h
    exact absurd rfl h
  | some requested =>
    obtain ⟨u, hu, hpath, rfl⟩ := mem_of_wantedSource hrequested
    obtain ⟨d, hd, hindex, hupdate⟩ := mem_updatesAt.1 hu
    rw [hwanted, hrequested] at h ⊢
    cases u with
    | record path => exact absurd rfl h
    | replace path source =>
      obtain ⟨hembed, hfile⟩ := updateOf_eq_replace hupdate
      exact ⟨d, hd, hindex, (updateOf_path hupdate).symm.trans hpath, hembed, source, hfile, rfl⟩

end

/-! ## Every run -/

/-- What a command may have done to a file on the way from the disk `d` to the disk `d'`: it has
overwritten or created it with the embedded source, or with a part of it if that write failed. -/
structure MayWrite {φ ε : Type} (op : Operation) (selection : SelectionKind)
    (selected : List InventoryEntry) (d d' : Disk φ)
    (r : Except (PolicyFailure (EngineAccessFailure ε) Error) Report) (i : FileIdentity)
    (entry : InventoryEntry) : Prop where
  overwritten : ∀ file, entry.filesystem = some file → MayOverwrite op selection selected entry file ∧
    d.target entry.path = some ⟨.file, i⟩ ∧ ∃ bytes text, d.content i = some bytes ∧
      decode bytes = some text ∧ file.value = canonicalizeSource text
  created : entry.filesystem = none → MayCreate op selection entry ∧
    d.target entry.path = none ∧ d.content i = none ∧ d'.target entry.path = some ⟨.file, i⟩
  content : ∃ n, d'.content i = some ((encode entry.embedded.value).take n) ∧
    ((encode entry.embedded.value).take n = encode entry.embedded.value ∨
      EngineCutShort entry.path r)

/-- What a command may have done to a node: each fragment keeps its source, or is a selected one
whose source may be replaced and is replaced by the one of its file. -/
structure MayRewrite (op : Operation) (selection : SelectionKind)
    (selected : List InventoryEntry) (n n' : SourceNode) : Prop where
  index : n'.handle.index = n.handle.index
  kind : n'.kind = n.kind
  source : ∃ (p : ParsedSource) (ss : List FragmentSection) (tail : List Line)
    (want : FragmentSection → FragmentView), Parses n p ∧ p.Sections n.kind ss tail ∧
    n'.source = (ss.flatMap fun s => s.updatedText (want s)) ++ joinLines tail ∧
    ∀ s ∈ ss, (want s).source = s.fragment.source ∨ ∃ entry ∈ selected,
      entry.nodeIndex = n.handle.index ∧ entry.path = s.path ∧
      MayReplace op selection selected entry ∧
      ∃ file, entry.filesystem = some file ∧ (want s).source = file.value

section
variable {σ δ φ ε : Type} {fs : FileSystem σ δ φ} {access : AccessPolicy σ ε} {request : Request}
  {s u t : σ} {b : Batch δ} {paths : ResolvedPaths}

/-- The prepared document replaces only what may be replaced. The nodes are paired with their old
ones, and the fragments of a node with theirs. -/
theorem Prepares.mayRewrite (h : Prepares fs access request s b u) {d : Nat} {document : Document}
    (hdocument : Document.parse d b.inventory.documentBytes = .ok document)
    (hvalid : ValidFragments document.sources) (d' : Nat) :
    ∃ document', Document.parse d' (b.output.getD b.inventory.documentBytes) = .ok document' ∧
      List.Forall₂ (MayRewrite b.op (selectionKind request.selectors) b.selected) document.sources
        document'.sources := by
  obtain ⟨hforced, hprepared, hmaterialize⟩ := h.preparedFrom
  obtain ⟨document', hparse', hupdated⟩ := materializeDocument_spec hmaterialize hdocument d'
  refine ⟨document', hparse', ?_⟩
  have hnodes := (List.forall₂_and_left _ _).2 ⟨fun n hn => hvalid.node hn, hupdated⟩
  refine hnodes.imp fun n n' hboth => ?_
  obtain ⟨⟨p, hp, -⟩, hnode⟩ := hboth
  obtain ⟨-, ss, tail, hs⟩ := ParsedSource.parse_eq_ok.1 hp
  obtain ⟨-, htext⟩ := hnode.text.sections hp hs
  rw [hprepared.updates] at htext
  refine ⟨hnode.index, hnode.kind, p, ss, tail, _, hp, hs, htext, fun s _ => ?_⟩
  rw [or_iff_not_imp_left]
  intro hne
  obtain ⟨d, hd, hindex, hpath, hembed, file, hfile, hsource⟩ := replaces_of_wanted hne
  obtain ⟨entry, hentry, rfl⟩ := List.mem_map.1 hd
  exact ⟨entry, hentry, hindex, hpath, mayReplace_of_embed hforced hembed, file, hfile, hsource⟩

/-- What a command may have done on the way from `s` to `t`: files have changed only as the
operation may change them, and the document that was prepared replaces only what it may replace. -/
def Guarded (W : Workspace fs access paths) (request : Request) (op : Operation) (s : σ)
    (r : Except (PolicyFailure (EngineAccessFailure ε) Error) Report) (t : σ) : Prop :=
  (∀ i, (W.view t).content i = (W.view s).content i) ∨
  ∃ b u, Prepares fs access request s b u ∧ b.op = op ∧
    (∀ i, (W.view t).content i = (W.view s).content i ∨
      (∃ entry ∈ b.selected, MayWrite op (selectionKind request.selectors) b.selected
        (W.view s) (W.view t) r i entry) ∨
      (W.view s).document = some i ∧ ∃ bytes n, b.output = some bytes ∧
        (W.view t).content i = some (bytes.take n)) ∧
    ∀ d d', ∃ document document', Document.parse d b.inventory.documentBytes = .ok document ∧
      Document.parse d' (b.output.getD b.inventory.documentBytes) = .ok document' ∧
      List.Forall₂ (MayRewrite op (selectionKind request.selectors) b.selected) document.sources
        document'.sources

/-- Every run of a mutating command is guarded, however it ends. Before the commit nothing is
written. Behind it the log of the writes has only what was prepared, whether all of it or the part
before a failure. -/
theorem executeWithAccess_guarded (W : Workspace fs access paths)
    (hpaths : resolvePaths request.cwd request.document request.sourceRoot = .ok paths)
    {op : Operation} (hmode : request.mode = .mutate op)
    {r : Except (PolicyFailure (EngineAccessFailure ε) Error) Report}
    (hrun : executeWithAccess fs access request s = (r, t)) : Guarded W request op s r t := by
  by_cases hprepares : ∃ b u, Prepares fs access request s b u
  case neg =>
    have hview := executeWithAccess_idle W hpaths hprepares
    rw [hrun] at hview
    exact .inl fun i => by rw [hview]
  obtain ⟨b, u, h⟩ := hprepares
  obtain rfl : b.paths = paths := Except.ok.inj (h.paths.symm.trans hpaths)
  obtain rfl : b.op = op := Mode.mutate.inj (h.mode.symm.trans hmode)
  obtain ⟨hforced, -, -⟩ := h.preparedFrom
  obtain ⟨-, -, hsublist, -⟩ := h.selected_sublist
  obtain ⟨-, hshows⟩ := h.shows W
  obtain ⟨i₀, -, -, document₁, ds, hparse₁, hds, hlists⟩ := hshows.listed
  obtain ⟨-, i₁, ws, d₁, hsettles⟩ := h.settles W hrun
  refine .inr ⟨b, u, h, rfl, fun i => ?_, fun d d' => ?_⟩
  · have hpresent : ∀ w ∈ ws, w.1.filesystem ≠ none →
        ∃ i, (W.view s).target w.1.path = some ⟨.file, i⟩ := fun w hw hfile =>
      hlists.present (hsublist.subset (h.mem_extracted.1 (hsettles.written w hw).1).1) hfile
    obtain ⟨hextends, hcases⟩ := hsettles.filled
    have hkept : (W.view t).content i = d₁.content i ∨ i = i₁ ∧ ∃ bytes n,
        b.output = some bytes ∧ (W.view t).content i = some (bytes.take n) := by
      rcases hcases with ⟨hsame, -⟩ | ⟨bytes, hbytes, n, hsets, -⟩
      · exact .inl (by rw [hsame])
      · by_cases heq : i = i₁
        · subst heq
          exact .inr ⟨rfl, bytes, n, hbytes, hsets.self⟩
        · exact .inl (hsets.of_ne heq)
    rcases hkept with hkept | ⟨rfl, hdocument⟩
    · rcases hsettles.writings.changed hpresent i with
        hsame | ⟨w, hw, hcontent, htarget, hthere, hfree⟩
      · exact .inl (hkept.trans hsame)
      obtain ⟨hextracted, n, hn, hfull⟩ := hsettles.written w hw
      obtain ⟨hselected, hdecided⟩ := h.mem_extracted.1 hextracted
      refine .inr (.inl ⟨w.1, hselected, fun file hfile => ?_, fun hfile => ?_, n, ?_, ?_⟩)
      · have hfile' := hthere (by rw [hfile]; simp)
        refine ⟨mayOverwrite_of_extract hforced hdecided hfile, hfile', ?_⟩
        have hfound := hlists.found w.1 (hsublist.subset hselected)
        rw [hfile] at hfound
        cases hfound with
        | present htarget' hcontent' htext hsource =>
          obtain rfl := (Metadata.mk.inj (Option.some.inj (hfile'.symm.trans htarget'))).2
          exact ⟨_, _, hcontent', htext, (CanonicalSource.tryFrom_eq_ok.1 hsource).2⟩
      · exact ⟨mayCreate_of_extract hforced hselected hdecided hfile, (hfree hfile).1,
          (hfree hfile).2, hextends.target _ _ htarget⟩
      · rw [hkept, hcontent, hn, externalOutput]
      · exact hfull.imp_left fun hfull => hn.symm.trans hfull
    · exact .inr (.inr ⟨hsettles.document, hdocument⟩)
  · obtain ⟨document, hparse, hsources⟩ := parse_document hparse₁ d
    have hvalid : ValidFragments document.sources := by
      obtain ⟨ps, hps, hnodup⟩ := hds.valid
      refine ⟨ps, ?_, hnodup⟩
      rw [hsources, List.forall₂_map_left_iff]
      exact hps
    obtain ⟨document', hparse', hall⟩ := h.mayRewrite hparse hvalid d'
    exact ⟨document, document', hparse, hparse', hall⟩

end

end

/-! ## A sample -/

/-- A fragment without text, with what follows its path in the closing line. -/
def closedFragment (path : Char) (hash : Str) : Str :=
  ['-', '-', ' ', '@', '{', ' ', path, '\n', '-', '-', ' ', '@', '}', ' ', path] ++ hash ++ ['\n']

/-- A document with the fragments `p` without a hash, `q` with the hash of the empty text, and `r`
with the hash of an LF. -/
def threeWaysBuffer : Bytes :=
  sampleBuffer.take 84 ++ [82, 0, 0, 0] ++ encode (closedFragment 'p' [] ++
    closedFragment 'q' (' ' :: List.replicate 16 '0') ++
    closedFragment 'r' (' ' :: "01ba4719c80b6fe9".toList)) ++ [0]

/-- The files of `q` and `r` hold an LF. So `q` has changed in its file, and `r` in the document. -/
def threeWaysTree : Tree :=
  (((sampleTree.setContent [sampleDocumentName] threeWaysBuffer).add [['q']] .file
    (by decide) rfl).setContent [['q']] [10] |>.add [['r']] .file (by decide) rfl).setContent
      [['r']] [10]

/-- Synchronizes all fragments. -/
def syncThreeWays : Except (PolicyFailure (EngineAccessFailure Empty) Error) Report × Tree :=
  @executeWithAccess lfDigest _ _ _ _ (treeFilesystem []) AccessPolicy.direct
    { sampleRequest with mode := .mutate .sync } threeWaysTree

/-- One file is created, one is embedded, and one is overwritten. What is overwritten, and what is
replaced, has the stored hash. -/
theorem executeWithAccess_guarded_sample :
    syncThreeWays.1.toOption.map Report.entries =
      some [.action ⟨['p'], rfl⟩ .extract, .action ⟨['q'], rfl⟩ .embed,
        .action ⟨['r'], rfl⟩ .extract] ∧
    @Guarded lfDigest _ _ _ _ _ _ _ sampleWorkspace { sampleRequest with mode := .mutate .sync } .sync
      threeWaysTree syncThreeWays.1 syncThreeWays.2 :=
  ⟨by decide +kernel, @executeWithAccess_guarded lfDigest _ _ _ _ _ _ _ _ _ _ sampleWorkspace rfl _
    rfl _ Prod.mk.eta.symm⟩

end Zwirn.Sync
