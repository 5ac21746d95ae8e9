import Zwirn.Sync.Links
import Zwirn.Sync.Split

/-!
# Aliases among created targets

On a tree with links two targets can be one file. A commit compares each target it creates with the
others that lead somewhere at that time, but the directories of later targets can make a link lead
back to it. `executeWithAccess_unaliased_iff` says that nothing else makes a created target the file
of another one.
-/

namespace Zwirn.Sync

open Lib Fragment Adls

section
variable (limit : Nat) (dir : Location)

/-- What stands at a target, behind the links on the way. -/
def LinkTree.target (t : LinkTree) (path : FragmentPath) : Option Metadata :=
  (t.lookup limit (some dir) dir (relativePath path)).toOption.map (·.2)

/-- The target leads to a location. -/
def TargetLeads (l : Layout Str) (path : FragmentPath) (x : Location) : Prop :=
  l.Leads (some dir) limit dir (relativePath path).steps x

/-- The layout with the directories of a target. -/
def withParents (l : Layout Str) (path : FragmentPath) : Layout Str :=
  l.withDirectories (some dir) limit dir [] (Path.steps ⟨false, path.segments.dropLast⟩)

/-- The layout with the directories of some targets. -/
def withAllParents (l : Layout Str) (paths : List FragmentPath) : Layout Str :=
  paths.foldl (withParents limit dir) l

end

section
variable {ε : Type} {limit : Nat} {cwd : Location} {root : SourceRoot Location} {dir : Location}
  {t t' : LinkTree} {l : Layout Str} {path : FragmentPath}

/-- A target is seen exactly if its path leads to something, links included. The walk ends at one
location only. -/
theorem LinkTree.target_eq_some {m : Metadata} : t.target limit dir path = some m ↔
    ∃ x, TargetLeads limit dir t.layout path x ∧ t.metadata x = some m := by
  unfold LinkTree.target TargetLeads
  cases hlookup : t.lookup limit (some dir) dir (relativePath path) with
  | ok found =>
    obtain ⟨hleads, hm⟩ := LinkTree.lookup_eq_ok.1 hlookup
    refine ⟨fun h => ?_, fun h => ?_⟩
    · cases h
      exact ⟨found.1, hleads, hm⟩
    · obtain ⟨x, hleads', hm'⟩ := h
      obtain rfl := hleads.unique hleads'
      exact hm.symm.trans hm'
  | error e =>
    refine ⟨(fun h => by cases h), fun h => ?_⟩
    obtain ⟨x, hleads, hm⟩ := h
    have hfound : t.lookup limit (some dir) dir (relativePath path) = .ok (x, m) :=
      LinkTree.lookup_eq_ok.2 ⟨hleads, hm⟩
    rw [hfound] at hlookup
    cases hlookup

/-- What stands at a location of a tree still does in a larger one. -/
theorem LinkTree.Extends.metadata (h : t.Extends t') {x : Location} {m : Metadata}
    (hm : t.metadata x = some m) : t'.metadata x = some m := by
  obtain ⟨occupant, hx, rfl⟩ := Option.map_eq_some_iff.1 hm
  rw [LinkTree.metadata, h.grows.eq_some hx, h.inode x (by simp [hx])]
  rfl

/-- What a path finds it finds in a tree that extends this one. -/
theorem LinkTree.Extends.lookup (h : t.Extends t') {floor : Option Location} {location : Location}
    {path : Path} {found : Location × Metadata}
    (hfound : t.lookup limit floor location path = .ok found) :
    t'.lookup limit floor location path = .ok found := by
  obtain ⟨hleads, hm⟩ := LinkTree.lookup_eq_ok.1 hfound
  exact LinkTree.lookup_eq_ok.2 ⟨hleads.grows h.grows, h.metadata hm⟩

/-- So a target that is there stays what it is. -/
theorem LinkTree.Extends.target (h : t.Extends t') {m : Metadata}
    (hm : t.target limit dir path = some m) : t'.target limit dir path = some m := by
  obtain ⟨x, hleads, hx⟩ := LinkTree.target_eq_some.1 hm
  exact LinkTree.target_eq_some.2 ⟨x, hleads.grows h.grows, h.metadata hx⟩

/-- Making the directories above a target only adds to the layout. -/
theorem withParents_grows : l.Grows (withParents limit dir l path) := Layout.withDirectories_grows

/-- So does making those above several targets, -/
theorem withAllParents_grows {paths : List FragmentPath} :
    l.Grows (withAllParents limit dir l paths) := by
  induction paths generalizing l with
  | nil => exact .refl l
  | cons path paths ih => exact withParents_grows.trans ih

/-- which are made one target after the other. -/
theorem withAllParents_append {paths paths' : List FragmentPath} :
    withAllParents limit dir l (paths ++ paths') =
      withAllParents limit dir (withAllParents limit dir l paths) paths' := List.foldl_append

/-! ## One output -/

/-- Reading a tree with links leaves it as it is. -/
theorem linkFilesystem_readsOnly {access : AccessPolicy LinkTree ε}
    (haccess : ∀ kind path s, (access.grant kind path s).2 = s) :
    ReadsOnly (linkFilesystem limit cwd) access :=
  ⟨haccess, fun _ _ => rfl, fun _ _ _ => rfl, fun _ _ _ => rfl, fun _ _ => rfl, fun _ _ => rfl,
    fun _ _ => rfl⟩

/-- The directories of an output are made. Where they are made is computed in the layout without the
outputs written so far. -/
theorem createParent_links (hl : l.GainsFiles t.layout) {completed : List FragmentPath}
    {output : ExternalOutput} {u : Unit} (h : @createParent LinkTree ε
      (realFilesystem (linkFilesystem limit cwd) root) completed output t = (.ok u, t')) :
    (withParents limit root.directory l output.path).GainsFiles t'.layout ∧ t.Extends t' := by
  unfold createParent at h
  rw [nonemptyParent_relativePath] at h
  by_cases hnil : output.path.segments.dropLast = []
  · rw [if_pos hnil] at h
    cases h
    unfold withParents
    rw [hnil]
    exact ⟨hl, .refl _⟩
  · rw [if_neg hnil] at h
    exact LinkTree.createDirs_spec (Run.mapError_eq_ok.1 h) hl

/-- When no alias is found, no other candidate can be looked up with this identity. The induction is
on the candidates. One that cannot be probed is passed over, which is where a later alias can
escape. -/
theorem findAlias_links {identity : FileIdentity} {candidates : List FragmentPath}
    (h : root.findAlias (linkFilesystem limit cwd) path identity candidates t = (.ok none, t')) :
    t' = t ∧ ∀ candidate ∈ candidates, candidate ≠ path → ∀ m,
      t.target limit root.directory candidate = some m → m.identity ≠ identity := by
  induction candidates with
  | nil =>
    cases h
    exact ⟨rfl, fun _ hmem => by cases hmem⟩
  | cons candidate candidates ih =>
    rw [SourceRoot.findAlias] at h
    split at h
    · next hne =>
      have hprobe : root.targetIdentity (linkFilesystem limit cwd) candidate t =
          (Metadata.identity <$> (·.2) <$>
            t.lookup limit (some root.directory) root.directory (relativePath candidate), t) := by
        unfold SourceRoot.targetIdentity SourceRoot.metadata
        rw [Run.bind_apply]
        dsimp only [linkFilesystem, LinkTree.reading]
        cases t.lookup limit (some root.directory) root.directory (relativePath candidate) <;> rfl
      rw [Run.bind_of_ok (Run.attempt_of hprobe)] at h
      split at h
      · cases h
      · next hother =>
        obtain ⟨rfl, hrest⟩ := ih h
        refine ⟨rfl, List.forall_mem_cons.2 ⟨fun _ m hm heq => hother ?_, hrest⟩⟩
        obtain ⟨found, hfound, rfl⟩ := Option.map_eq_some_iff.1 hm
        rw [← heq]
        cases hlookup : t'.lookup limit (some root.directory) root.directory
            (relativePath candidate) with
        | ok found' =>
          rw [hlookup] at hfound
          cases hfound
          rfl
        | error e =>
          rw [hlookup] at hfound
          cases hfound
    · next heq =>
      obtain ⟨rfl, hrest⟩ := ih h
      exact ⟨rfl, List.forall_mem_cons.2 ⟨fun hne => absurd hne heq, hrest⟩⟩

/-- A target was created between the trees `t` and `t'`. No other one of `absent` leads to it in the
layout `l`. -/
structure Creates (limit : Nat) (dir : Location) (absent : List FragmentPath) (l : Layout Str)
    (t t' : LinkTree) (path : FragmentPath) (x : Location) : Prop where
  new : t.layout x = none
  file : t'.layout x = some .file
  leads : TargetLeads limit dir t'.layout path x
  apart : ∀ other ∈ absent, other ≠ path → ¬ TargetLeads limit dir l other x

/-- A target is created, and none of the others leads to it. None leads to it now, which says
nothing of links that lead nowhere yet. -/
theorem createTarget_links (hl : l.GainsFiles t.layout) {bytes : Bytes} {absent : List FragmentPath}
    (h : root.createTarget (linkFilesystem limit cwd) path bytes absent t = (.ok none, t')) :
    l.GainsFiles t'.layout ∧ t.Extends t' ∧
      ∃ x, Creates limit root.directory absent l t t' path x := by
  obtain ⟨x, t₁, hopen, h₁⟩ := Run.bind_eq_ok.1 h
  obtain ⟨hvacant, rfl⟩ := LinkTree.createNew_eq_ok hopen
  obtain ⟨-, hnone⟩ := Layout.vacancy_eq_ok.1 hvacant
  obtain ⟨m, t₂, hmetadata, h₂⟩ := Run.bind_eq_ok.1 h₁
  dsimp only [linkFilesystem] at hmetadata
  obtain ⟨hm, rfl⟩ := LinkTree.reading_eq_ok.1 hmetadata
  obtain ⟨_, t₃, hwrite, h₃⟩ := Run.bind_eq_ok.1 h₂
  cases hwrite
  obtain ⟨rfl, hcandidates⟩ := findAlias_links h₃
  have hextends : t.Extends ((t.add x .file).overwrite x bytes) :=
    (LinkTree.add_extends hnone fun target heq => by cases heq).trans
      (LinkTree.overwrite_extends bytes)
  have hgains : l.GainsFiles (t.layout.put x .file) := hl.put_file hnone
  refine ⟨hgains, hextends, x, hnone, Layout.put_self _ _ _,
    (Layout.leads_of_vacancy hvacant).grows hextends.grows, fun other hother hne hleads => ?_⟩
  refine hcandidates other hother hne m (LinkTree.target_eq_some.2 ⟨x, ?_, okOr_eq_ok.1 hm⟩) rfl
  exact hleads.grows hgains.grows

/-- A target that is there is written over. -/
theorem replaceTarget_links (hpresent : t.target limit root.directory path ≠ none) {bytes : Bytes}
    {u : Unit} (h : root.replaceTarget (linkFilesystem limit cwd) path bytes t = (.ok u, t')) :
    t'.layout = t.layout ∧ t.Extends t' := by
  obtain ⟨m, hm⟩ := Option.ne_none_iff_exists'.1 hpresent
  obtain ⟨y, hleads, hy⟩ := LinkTree.target_eq_some.1 hm
  have hlookup : t.lookup limit (some root.directory) root.directory (relativePath path) =
      .ok (y, m) := LinkTree.lookup_eq_ok.2 ⟨hleads, hy⟩
  obtain ⟨x, t₁, hopen, h₁⟩ := Run.bind_eq_ok.1 h
  obtain ⟨hlayout, hextends⟩ := LinkTree.truncate_eq_ok hlookup hopen
  cases h₁
  exact ⟨hlayout, hextends.trans (LinkTree.overwrite_extends bytes)⟩

/-- An output is written: its directories are made, and its target is created if it was absent. The
layout that is compared has all directories above the target from the beginning. -/
theorem commitExternal_links {access : AccessPolicy LinkTree ε}
    (haccess : ∀ kind path s, (access.grant kind path s).2 = s) (hl : l.GainsFiles t.layout)
    {entry : InventoryEntry}
    (hpresent : entry.filesystem ≠ none → t.target limit root.directory entry.path ≠ none)
    {absent completed completed' : List FragmentPath}
    (h : commitExternal access (realFilesystem (linkFilesystem limit cwd) root) absent completed
      (externalOutput entry) t = (.ok completed', t')) :
    (withParents limit root.directory l entry.path).GainsFiles t'.layout ∧ t.Extends t' ∧
      (entry.filesystem = none → ∃ x, Creates limit root.directory absent
        (withParents limit root.directory l entry.path) t t' entry.path x) := by
  rw [commitExternal_eq] at h
  obtain ⟨_, t₁, hparent, h₁⟩ := Run.bind_eq_ok.1 h
  obtain ⟨hl₁, hextends₁⟩ := createParent_links hl hparent
  obtain ⟨granted, t₂, hgrant, hcases⟩ := writeOutput_cases _ _ h₁
  obtain rfl : t₂ = t₁ := by
    rw [← haccess .write ((realFilesystem (linkFilesystem limit cwd) root).externalDestination
      (externalOutput entry).path) t₁, hgrant]
  rcases hcases with ⟨_, _, -, hr, -⟩ | ⟨result, -, hwrite, hends⟩
  · cases hr
  rcases hends with ⟨_, -, hr⟩ | ⟨_, _, -, hr⟩ | ⟨rfl, -⟩
  · cases hr
  · cases hr
  cases hfile : entry.filesystem with
  | none =>
    rw [show (externalOutput entry).write = .createNew from if_pos (by rw [hfile]; rfl)] at hwrite
    obtain ⟨hl₂, hextends₂, x, hcreates⟩ := createTarget_links hl₁ hwrite
    refine ⟨hl₂, hextends₁.trans hextends₂, fun _ => ⟨x, ?_, hcreates.file, hcreates.leads,
      hcreates.apart⟩⟩
    rw [Option.eq_none_iff_forall_ne_some]
    intro occupant hx
    have hx' := hextends₁.grows.eq_some hx
    rw [hcreates.new] at hx'
    cases hx'
  | some source =>
    rw [show (externalOutput entry).write = .createOrTruncate from
      if_neg (by rw [hfile]; simp)] at hwrite
    obtain ⟨_, t₃, hreplace, hreturn⟩ := Run.bind_eq_ok.1 hwrite
    cases hreturn
    obtain ⟨m, hm⟩ := Option.ne_none_iff_exists'.1 (hpresent (by rw [hfile]; simp))
    have hthere : t₂.target limit root.directory entry.path ≠ none := by
      rw [hextends₁.target hm]
      exact Option.some_ne_none m
    obtain ⟨hlayout, hextends₂⟩ := replaceTarget_links hthere hreplace
    exact ⟨hlayout ▸ hl₁, hextends₁.trans hextends₂, (fun hnone => by cases hnone)⟩

/-- What is created at a target on the way is created by the whole run, if the trees before and
behind it only grow. -/
theorem Creates.of_extends {limit : Nat} {dir : Location} {absent : List FragmentPath}
    {l : Layout Str} {t t₁ t₂ t' : LinkTree} {path : FragmentPath} {x : Location}
    (h : Creates limit dir absent l t₁ t₂ path x) (hbefore : t.Extends t₁) (hafter : t₂.Extends t') :
    Creates limit dir absent l t t' path x := by
  refine ⟨?_, hafter.grows.eq_some h.file, h.leads.grows hafter.grows, h.apart⟩
  rw [Option.eq_none_iff_forall_ne_some]
  intro occupant hx
  have hx' := hbefore.grows.eq_some hx
  rw [h.new] at hx'
  cases hx'

/-! ## The commit -/

/-- The outputs are written one behind another. The induction is on the outputs, with the layout and
the directories that were made before. -/
theorem commitExternals_links {access : AccessPolicy LinkTree ε}
    (haccess : ∀ kind path s, (access.grant kind path s).2 = s) (hl : l.GainsFiles t.layout)
    {entries : List InventoryEntry} (hpresent : ∀ entry ∈ entries,
      entry.filesystem ≠ none → t.target limit root.directory entry.path ≠ none)
    {absent completed completed' : List FragmentPath}
    (h : commitExternals access (realFilesystem (linkFilesystem limit cwd) root) absent completed
      (entries.map externalOutput) t = (.ok completed', t')) :
    (withAllParents limit root.directory l (entries.map InventoryEntry.path)).GainsFiles t'.layout ∧
      t.Extends t' ∧ ∀ before entry after, entries = before ++ entry :: after →
        entry.filesystem = none → ∃ x, Creates limit root.directory absent
          (withAllParents limit root.directory l ((before ++ [entry]).map InventoryEntry.path))
            t t' entry.path x := by
  induction entries generalizing l t completed with
  | nil =>
    cases h
    exact ⟨hl, .refl _, fun before entry after heq => by simp at heq⟩
  | cons entry entries ih =>
    obtain ⟨completed₁, t₁, hone, hrest⟩ := Run.bind_eq_ok.1 h
    rw [List.forall_mem_cons] at hpresent
    obtain ⟨hl₁, hextends₁, hcreates₁⟩ := commitExternal_links haccess hl hpresent.1 hone
    have hpresent₁ : ∀ other ∈ entries,
        other.filesystem ≠ none → t₁.target limit root.directory other.path ≠ none := by
      intro other hother hfile
      obtain ⟨m, hm⟩ := Option.ne_none_iff_exists'.1 (hpresent.2 other hother hfile)
      rw [hextends₁.target hm]
      exact Option.some_ne_none m
    obtain ⟨hl₂, hextends₂, hcreates₂⟩ := ih hl₁ hpresent₁ hrest
    refine ⟨hl₂, hextends₁.trans hextends₂, fun before other after heq hnone => ?_⟩
    cases before with
    | nil =>
      obtain ⟨rfl, -⟩ := List.cons.inj heq
      obtain ⟨x, hcreates⟩ := hcreates₁ hnone
      exact ⟨x, hcreates.of_extends (.refl _) hextends₂⟩
    | cons first before =>
      obtain ⟨hfirst, htail⟩ := List.cons.inj heq
      obtain ⟨x, hcreates⟩ := hcreates₂ before other after htail hnone
      subst hfirst
      exact ⟨x, hcreates.of_extends hextends₁ (.refl _)⟩

/-- The document is written over. It is there, so nothing comes into being. Its location still has
the file that discovery has found there. -/
theorem commitDocument_links {access : AccessPolicy LinkTree ε}
    (haccess : ∀ kind path s, (access.grant kind path s).2 = s) {document : Path}
    (hthere : ∃ found, t.lookup limit none (document.start cwd) document = .ok found)
    {completed : List FragmentPath} {output : Option Bytes} {u : Unit}
    (h : commitDocument access (realFilesystem (linkFilesystem limit cwd) root) completed
      (output.map fun bytes => ⟨document, bytes⟩) t = (.ok u, t')) :
    t'.layout = t.layout ∧ t.Extends t' := by
  cases output with
  | none =>
    cases h
    exact ⟨rfl, .refl _⟩
  | some bytes =>
    obtain ⟨found, hfound⟩ := hthere
    obtain ⟨t₁, hgrant, hwrite⟩ := flatten_around_eq_ok.1 (Run.mapError_eq_ok.1 h)
    obtain rfl : t₁ = t := by
      have hstate := haccess .write document t
      rwa [hgrant] at hstate
    obtain ⟨x, t₂, hopen, hoverwrite⟩ := Run.bind_eq_ok.1 hwrite
    obtain ⟨hlayout, hextends⟩ := LinkTree.truncate_eq_ok hfound hopen
    cases hoverwrite
    exact ⟨hlayout, hextends.trans (LinkTree.overwrite_extends bytes)⟩

/-! ## The command -/

section
variable (limit : Nat) (inventory : Inventory Location) (extracted : List InventoryEntry)

/-- Each target that was created is a file, and it is the file of no other target. -/
def Unaliased (t : LinkTree) : Prop :=
  ∀ entry ∈ extracted, entry.filesystem = none → ∃ identity,
    t.target limit inventory.sourceRoot.directory entry.path = some ⟨.file, identity⟩ ∧
    ∀ other ∈ inventory.entries, other.path ≠ entry.path → ∀ m,
      t.target limit inventory.sourceRoot.directory other.path = some m → m.identity ≠ identity

/-- The target leads to a location when the directories of some entries are there. -/
def LeadsWith (l : Layout Str) (entries : List InventoryEntry) (path : FragmentPath)
    (x : Location) : Prop :=
  TargetLeads limit inventory.sourceRoot.directory (withAllParents limit
    inventory.sourceRoot.directory l (entries.map InventoryEntry.path)) path x

/-- Every other target that leads to a created one when the directories of all extracted targets are
there leads somewhere when those of the targets up to the created one are there. -/
def InTime (l : Layout Str) : Prop :=
  ∀ before entry after, extracted = before ++ entry :: after → entry.filesystem = none →
    ∀ other ∈ inventory.entries, other.path ≠ entry.path →
      ∀ x, LeadsWith limit inventory l extracted entry.path x →
        LeadsWith limit inventory l extracted other.path x →
        ∃ y, LeadsWith limit inventory l (before ++ [entry]) other.path y

end

/-- Targets that were created are no aliases when all links to them have led somewhere in time. A
link that leads to a target at the end led there when the target was created, or it did not, and
then the code could not see it. -/
theorem unaliased_iff {inventory : Inventory Location} {extracted : List InventoryEntry}
    (hpresent : ∀ entry ∈ inventory.entries, entry.filesystem ≠ none →
      t.target limit inventory.sourceRoot.directory entry.path ≠ none)
    (hgains : (withAllParents limit inventory.sourceRoot.directory t.layout
      (extracted.map InventoryEntry.path)).GainsFiles t'.layout) (hextends : t.Extends t')
    (hcreates : ∀ before entry after, extracted = before ++ entry :: after →
      entry.filesystem = none → ∃ x, Creates limit inventory.sourceRoot.directory
        (absentTargets inventory.entries) (withAllParents limit inventory.sourceRoot.directory t.layout
          ((before ++ [entry]).map InventoryEntry.path)) t t' entry.path x) :
    Unaliased limit inventory extracted t' ↔ InTime limit inventory extracted t.layout := by
  constructor
  case mp =>
    intro hunaliased before entry after heq hnone other hother hne x hleads hleads'
    obtain ⟨identity, htarget, hapart⟩ := hunaliased entry (by simp [heq]) hnone
    obtain ⟨y, hy, hm⟩ := LinkTree.target_eq_some.1 htarget
    obtain rfl := (hgains.leads_iff.2 hleads).unique hy
    refine absurd rfl (hapart other hother hne _ (LinkTree.target_eq_some.2 ⟨y, ?_, hm⟩))
    exact hgains.leads_iff.2 hleads'
  case mpr =>
    intro hintime entry hentry hnone
    obtain ⟨before, after, heq⟩ := List.append_of_mem hentry
    obtain ⟨x, hcreated⟩ := hcreates before entry after heq hnone
    have hx : t'.metadata x = some ⟨.file, ⟨0, t'.inode x⟩⟩ := by
      rw [LinkTree.metadata, hcreated.file]
      rfl
    refine ⟨_, LinkTree.target_eq_some.2 ⟨x, hcreated.leads, hx⟩, fun other hother hne m hm => ?_⟩
    obtain ⟨y, hy, hmy⟩ := LinkTree.target_eq_some.1 hm
    intro hidentity
    obtain ⟨occupant, hoccupant, rfl⟩ := Option.map_eq_some_iff.1 hmy
    obtain rfl := hextends.new x y hcreated.new (by simp [hcreated.file]) (by simp [hoccupant])
      (congrArg FileIdentity.inode hidentity)
    obtain ⟨z, hz⟩ := hintime before entry after heq hnone other hother hne y
      (hgains.leads_iff.1 hcreated.leads) (hgains.leads_iff.1 hy)
    have hgrows : (withAllParents limit inventory.sourceRoot.directory t.layout
        ((before ++ [entry]).map InventoryEntry.path)).Grows t'.layout := by
      have hall : extracted.map InventoryEntry.path =
          (before ++ [entry]).map InventoryEntry.path ++ after.map InventoryEntry.path := by
        rw [heq, List.append_cons, List.map_append]
      refine Layout.Grows.trans ?_ hgains.grows
      rw [hall, withAllParents_append]
      exact withAllParents_grows
    obtain rfl := (hz.grows hgrows).unique hy
    by_cases habsent : other.filesystem = none
    · exact hcreated.apart other.path (List.mem_map_of_mem (List.mem_filter.2
        ⟨hother, by rw [habsent]; rfl⟩)) hne hz
    · obtain ⟨m', hm'⟩ := Option.ne_none_iff_exists'.1 (hpresent other hother habsent)
      obtain ⟨w, hw, hmw⟩ := LinkTree.target_eq_some.1 hm'
      obtain rfl := (hw.grows hextends.grows).unique hy
      rw [LinkTree.metadata, hcreated.new] at hmw
      cases hmw

/-- An entry with a file has something at its target. The lookup that has read the file has
succeeded. -/
theorem HasTarget.target_ne_none {entry : InventoryEntry}
    (h : HasTarget (linkFilesystem limit cwd) root t entry) (hfile : entry.filesystem ≠ none) :
    t.target limit root.directory entry.path ≠ none := by
  obtain ⟨m, hm⟩ := h hfile
  dsimp only [linkFilesystem] at hm
  obtain ⟨hlookup, -⟩ := LinkTree.reading_eq_ok.1 hm
  unfold LinkTree.target
  cases hfound : t.lookup limit (some root.directory) root.directory (relativePath entry.path) with
  | ok found => exact Option.some_ne_none _
  | error e =>
    rw [hfound] at hlookup
    cases hlookup

section
variable [Sha256]

/-- The entries that a command extracts. -/
def extractedEntries {δ : Type} (request : Request) (op : Operation) (inventory : Inventory δ) :
    List InventoryEntry :=
  (chosen request.selectors inventory.entries).filter fun entry =>
    (decideEntry op (selectionKind request.selectors) entry).2 = .act .extract

/-- The extracted entries of a batch are determined by the request and the inventory. -/
theorem Prepares.extracted_eq {σ δ φ : Type} {fs : FileSystem σ δ φ} {access : AccessPolicy σ ε}
    {request : Request} {s u : σ} {b : Batch δ} (h : Prepares fs access request s b u) :
    b.prepared.extracted = extractedEntries request b.op b.inventory := by
  obtain ⟨-, hselected, -, -⟩ := h.selected_sublist
  obtain ⟨-, hprepared, -⟩ := h.preparedFrom
  rw [hprepared.extracted, List.filter_map, List.map_map, hselected]
  exact List.map_id _

/-- A mutating command that returned has created no alias exactly when all links to the targets it
created have led somewhere in time. The condition is about the layout before the command, and about
the directories that it makes on its way. -/
theorem executeWithAccess_unaliased_iff {access : AccessPolicy LinkTree ε} {request : Request}
    {op : Operation} {paths : ResolvedPaths} {inventory : Inventory Location} {report : Report}
    (haccess : ∀ kind path s, (access.grant kind path s).2 = s)
    (hpaths : resolvePaths request.cwd request.document request.sourceRoot = .ok paths)
    (hmode : request.mode = .mutate op)
    (hdiscovered : (Inventory.discoverForDocument (linkFilesystem limit cwd) paths.sourceRoot
      paths.document access t).1 = .ok inventory)
    (hrun : executeWithAccess (linkFilesystem limit cwd) access request t = (.ok report, t')) :
    Unaliased limit inventory (extractedEntries request op inventory) t' ↔
      InTime limit inventory (extractedEntries request op inventory) t.layout := by
  obtain ⟨b, u, h, rfl⟩ := exists_prepares hmode hrun
  obtain rfl : b.paths = paths := Except.ok.inj (h.paths.symm.trans hpaths)
  obtain ⟨rfl, htargets, file, hdocument⟩ :=
    ((linkFilesystem_readsOnly haccess).discoverForDocument _ _).eq_ok h.discovered
  obtain rfl : b.inventory = inventory := by
    rw [h.discovered] at hdiscovered
    exact Except.ok.inj hdiscovered
  have hpresent : ∀ entry ∈ b.inventory.entries, entry.filesystem ≠ none →
      u.target limit b.inventory.sourceRoot.directory entry.path ≠ none :=
    fun entry hentry => (htargets entry hentry).target_ne_none
  have hthere : ∃ found, u.lookup limit none (b.paths.document.start cwd) b.paths.document =
      .ok found := by
    dsimp only [linkFilesystem] at hdocument
    obtain ⟨hlookup, -⟩ := LinkTree.reading_eq_ok.1 hdocument
    cases hfound : u.lookup limit none (b.paths.document.start cwd) b.paths.document with
    | ok found => exact ⟨found, rfl⟩
    | error e =>
      rw [hfound] at hlookup
      cases hlookup
  rw [← h.extracted_eq]
  rw [executeWithAccess, h.executeUsing_eq] at hrun
  split at hrun
  · next hnothing =>
    cases hrun
    have hnone : b.prepared.extracted = [] := List.isEmpty_iff.1 hnothing.1
    rw [hnone]
    exact ⟨fun _ before entry after heq => by simp at heq, fun _ entry hentry => by cases hentry⟩
  · obtain ⟨_, t₁, hcommit, hreturn⟩ := Run.bind_eq_ok.1 hrun
    cases hreturn
    obtain ⟨_, t₂, horder, houtputs⟩ := Run.bind_eq_ok.1 (Run.mapError_eq_ok.1 hcommit)
    obtain ⟨-, rfl⟩ := operation_eq_ok.1 horder
    obtain ⟨completed, t₃, hexternals, hwritten⟩ := Run.bind_eq_ok.1 houtputs
    obtain ⟨-, -, hsublist, -⟩ := h.selected_sublist
    obtain ⟨hgains, hextends, hcreates⟩ := commitExternals_links haccess (.refl _)
      (fun entry hentry => hpresent entry (hsublist.subset (h.mem_extracted.1 hentry).1)) hexternals
    obtain ⟨found, hfound⟩ := hthere
    obtain ⟨hlayout, hextends'⟩ := commitDocument_links haccess
      ⟨found, hextends.lookup hfound⟩ hwritten
    refine unaliased_iff hpresent (hlayout ▸ hgains) (hextends.trans hextends') ?_
    intro before entry after heq hnone
    obtain ⟨x, hcreated⟩ := hcreates before entry after heq hnone
    exact ⟨x, hcreated.of_extends (.refl _) hextends'⟩

end

end

/-! ## A sample -/

/-- A fragment without text. -/
def bareFragment (path : Str) : Str :=
  ['-', '-', ' ', '@', '{', ' '] ++ path ++ ['\n', '-', '-', ' ', '@', '}', ' '] ++ path ++ ['\n']

/-- A document with the fragments `b`, `d/x` and `l`. -/
def detourBuffer : Bytes :=
  sampleBuffer.take 84 ++ [52, 0, 0, 0] ++
    encode (bareFragment ['b'] ++ bareFragment ['d', '/', 'x'] ++ bareFragment ['l']) ++ [0]

/-- A filesystem with the document and a link `l` to `d/../b`, where `d` is missing. -/
def detourTree : LinkTree where
  layout location :=
    if location = [] then some .directory
    else if location = [sampleDocumentName] then some .file
    else if location = [['l']] then some (.link [.down ['d'], .up, .down ['b']])
    else none
  inode location := if location = [] then 0 else if location = [['l']] then 1 else 2
  content _ := detourBuffer
  next := 3
  fresh location _ := by split_ifs <;> omega

/-- The fragment that is created first, -/
def detourTarget : FragmentPath := ⟨['b'], rfl⟩

/-- the one whose directory is created behind it, -/
def detourLater : FragmentPath := ⟨['d', '/', 'x'], rfl⟩

/-- and the one whose target is the link. -/
def detourLink : FragmentPath := ⟨['l'], rfl⟩

/-- Extracts fragments of the document. -/
def extractDetour (selectors : List FragmentPath) :
    Except (PolicyFailure (EngineAccessFailure Empty) Error) Report × LinkTree :=
  @executeWithAccess lfDigest _ _ _ _ (linkFilesystem 40 []) AccessPolicy.direct
    (sampleRequest.on selectors) detourTree

/-- What is discovered of the document. -/
def detourDiscovered : Except (PolicyFailure Empty InventoryError) (Inventory Location) × LinkTree :=
  Inventory.discoverForDocument (linkFilesystem 40 []) ⟨true, []⟩ ⟨true, [sampleDocumentName]⟩
    AccessPolicy.direct detourTree

/-- A target is extracted to which a link does not lead, for a directory is missing. That directory
stays missing, so the link never leads to the target. -/
theorem executeWithAccess_unaliased_sample : ∃ inventory, detourDiscovered.1 = .ok inventory ∧
    (Unaliased 40 inventory (@extractedEntries lfDigest _ (sampleRequest.on [detourTarget])
        (.extract false) inventory) (extractDetour [detourTarget]).2 ↔
      InTime 40 inventory (@extractedEntries lfDigest _ (sampleRequest.on [detourTarget])
        (.extract false) inventory) detourTree.layout) := by
  obtain ⟨inventory, hdiscovered⟩ := @exists_of_isOk _ _ _ detourDiscovered (by decide +kernel)
  obtain ⟨report, hrun⟩ := @exists_of_isOk _ _ _ (extractDetour [detourTarget]) (by decide +kernel)
  have hdiscovered := congrArg Prod.fst hdiscovered
  exact ⟨inventory, hdiscovered, @executeWithAccess_unaliased_iff _ 40 [] _ _ lfDigest _ _ _
    sampleResolved _ report (fun _ _ _ => rfl) rfl rfl hdiscovered hrun⟩

/-- The directory of a later target makes the link lead to the target that was created before. When
`b` is created the directory `d` is missing, so the link `l` leads nowhere, and the search passes it
over. -/
theorem not_unaliased_detour : ∃ inventory report, detourDiscovered.1 = .ok inventory ∧
    (extractDetour [detourTarget, detourLater]).1 = .ok report ∧
    ¬ Unaliased 40 inventory (@extractedEntries lfDigest _
      (sampleRequest.on [detourTarget, detourLater]) (.extract false) inventory)
        (extractDetour [detourTarget, detourLater]).2 := by
  let _ : Sha256 := lfDigest
  obtain ⟨report, hrun⟩ := @exists_of_isOk _ _ _ (extractDetour [detourTarget, detourLater])
    (by decide +kernel)
  obtain ⟨inventory, hdiscovered, hfound⟩ := @exists_of_any _ _ _ detourDiscovered
    (fun inventory => inventory.sourceRoot.directory = [] ∧
      (inventory.entries.any fun entry => entry.path = detourLink) ∧
      ((extractedEntries (sampleRequest.on [detourTarget, detourLater]) (.extract false)
        inventory).any fun entry => entry.path = detourTarget ∧ entry.filesystem = none))
    (by decide +kernel)
  obtain ⟨hroot, hother, hcreated⟩ := of_decide_eq_true hfound
  obtain ⟨other, hother, hlink⟩ := List.any_eq_true.1 hother
  obtain ⟨entry, hentry, hpath⟩ := List.any_eq_true.1 hcreated
  obtain ⟨hpath, hnone⟩ := of_decide_eq_true hpath
  refine ⟨inventory, report, congrArg Prod.fst hdiscovered, congrArg Prod.fst hrun, fun h => ?_⟩
  obtain ⟨identity, htarget, hapart⟩ := h entry hentry hnone
  have hsame : (extractDetour [detourTarget, detourLater]).2.target 40 [] detourLink =
      (extractDetour [detourTarget, detourLater]).2.target 40 [] detourTarget := by decide +kernel
  rw [hroot, hpath, ← hsame] at htarget
  refine hapart other hother ?_ ⟨.file, identity⟩ ?_ rfl
  · rw [of_decide_eq_true hlink, hpath]
    decide
  · rw [hroot, of_decide_eq_true hlink]
    exact htarget

end Zwirn.Sync
