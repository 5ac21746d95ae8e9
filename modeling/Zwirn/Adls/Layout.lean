import Zwirn.Lib.Outcome
import Zwirn.Lib.OrdMap
import Zwirn.Lib.Usize
import Zwirn.Lib.Utf8

/-!
# The region map of a parsed document

`Layout.add` records one region of the buffer and refuses it when it meets a region recorded before,
unless the two are the same region of a kind that may be shared. Each call looks only at the entry
of the same start and at the nearest entries on both sides. `Layout.addAll_eq_ok` states that this
suffices: a sequence of calls succeeds exactly when every region is nonempty and every two of them
are `Placed.Compatible`. What carries the proof is `Layout.Holds`, the disjointness of the stored
regions. The code is in `src/adls.rs`.
-/

namespace Zwirn.Adls

open Lib

/-- A patch-object index in one parsed document. -/
structure NodeHandle where
  index : Nat
  document : Nat
deriving DecidableEq, Repr

/-- A kind of node whose `f10` field contains source code. -/
inductive NodeKind
  | shader
  | canvas
  | dsp
  | lyteDsp
deriving DecidableEq, Repr

/-- The kind of a node by the type id of its patch object. Other objects have no source. -/
def NodeKind.fromTypeId (typeId : Nat) : Option NodeKind :=
  match typeId with
  | 74 => some .shader
  | 78 => some .canvas
  | 79 => some .dsp
  | 82 => some .lyteDsp
  | _ => none

/-- Failures while parsing or rewriting the narrow ADLS source view. -/
inductive Error
  | invalidHeader
  | invalidIdentifier
  | malformed (offset : Nat) (structure_ : String)
  | missingPatchObjectPool
  | duplicatePatchObjectTable (firstIndex secondIndex : Nat)
  | invalidSourceUtf8 (node : NodeHandle)
  | unknownNodeHandle (node : NodeHandle)
  | duplicateReplacement (node : NodeHandle)
  | sizeLimitExceeded
deriving DecidableEq, Repr

/-- What a region of a buffer is. -/
inductive RegionKind
  | header
  | table
  | vector
  | vtable
  | string
deriving DecidableEq, Repr

/-- Several references may lead to one vtable and to one string, and only to these. -/
def RegionKind.canShare : RegionKind → Bool
  | .vtable | .string => true
  | _ => false

/-- What is recorded of a region under its start: where it stops, and what it is. -/
structure Region where
  stop : Nat
  kind : RegionKind
deriving DecidableEq, Repr

/-- The regions of a buffer that were reached so far, by their starts. -/
structure Layout where
  regions : OrdMap Nat Region

namespace Layout

/-- Nothing was reached yet. -/
def new : Layout := ⟨.empty⟩

/-- Records the region from `start` to `stop`. It must not be empty. A region that starts where one
was recorded has to be this one, and shareable; any other one must overlap neither the nearest one
below nor the nearest one above. -/
def add (layout : Layout) (start stop : Nat) (kind : RegionKind) (structure_ : String) :
    Except Error Layout := do
  require (start < stop) (.malformed start structure_)
  match layout.regions.find? start with
  | some existing =>
    require (existing.stop = stop ∧ existing.kind = kind ∧ kind.canShare)
      (.malformed start structure_)
    pure layout
  | none =>
    require (¬ (layout.regions.below start).any fun previous => previous.2.stop > start)
      (.malformed start structure_)
    require (¬ (layout.regions.atLeast start).any fun next => next.1 < stop)
      (.malformed start structure_)
    pure ⟨layout.regions.insert start ⟨stop, kind⟩⟩

end Layout

/-! ## Placed regions -/

/-- A region together with its start, as one call of `Layout.add` records it. -/
structure Placed where
  start : Nat
  stop : Nat
  kind : RegionKind
deriving DecidableEq, Repr

namespace Placed

/-- The regions share no byte. -/
def Disjoint (r r' : Placed) : Prop := r.stop ≤ r'.start ∨ r'.stop ≤ r.start

/-- Two regions that may both be recorded: they share no byte, or they are one shareable region. -/
def Compatible (r r' : Placed) : Prop := r.Disjoint r' ∨ (r = r' ∧ r.kind.canShare)

/-- Which region comes first does not matter. -/
theorem Disjoint.symm {r r' : Placed} (h : r.Disjoint r') : r'.Disjoint r := Or.symm h

/-- Which region comes first does not matter. -/
theorem Compatible.symm {r r' : Placed} (h : r.Compatible r') : r'.Compatible r := by
  rcases h with h | ⟨rfl, h⟩
  · exact .inl h.symm
  · exact .inr ⟨rfl, h⟩

/-- Compatible regions of different kinds, or of a kind that is not shared, are disjoint. -/
theorem Compatible.disjoint {r r' : Placed} (h : r.Compatible r')
    (hk : r.kind ≠ r'.kind ∨ r.kind.canShare = false) : r.Disjoint r' := by
  rcases h with h | ⟨rfl, hs⟩
  · exact h
  · rcases hk with hk | hk
    · exact absurd rfl hk
    · rw [hk] at hs; cases hs

end Placed

/-! ## Exactness -/

namespace Layout

/-- What the map stores for the regions `rs` recorded so far: exactly them, each nonempty, any two
different entries disjoint. -/
structure Holds (layout : Layout) (rs : List Placed) : Prop where
  mem_iff : ∀ start stop kind, (start, ⟨stop, kind⟩) ∈ layout.regions.entries ↔
    (⟨start, stop, kind⟩ : Placed) ∈ rs
  nonempty : ∀ r ∈ rs, r.start < r.stop
  apart : ∀ r ∈ rs, ∀ r' ∈ rs, r.start < r'.start → r.stop ≤ r'.start

/-- Nothing is recorded at first. -/
theorem Holds.new : Holds new [] := by
  refine ⟨fun _ _ _ => ?_, by simp, by simp⟩
  simp [Layout.new, OrdMap.empty]

section
variable {layout : Layout} {rs : List Placed} {r : Placed} {structure_ : String}

/-- Recorded regions with one start are the same region. -/
theorem Holds.start_inj (h : Holds layout rs) {a b : Placed} (ha : a ∈ rs) (hb : b ∈ rs)
    (hs : a.start = b.start) : a = b := by
  have h1 := (h.mem_iff a.start a.stop a.kind).2 ha
  have h2 := (h.mem_iff b.start b.stop b.kind).2 hb
  have h3 := OrdMap.entries_inj h1 h2 hs
  cases a; cases b; simp_all

/-- Two recorded regions that are not the same share no byte. -/
theorem Holds.disjoint_of_ne (h : Holds layout rs) {a b : Placed} (ha : a ∈ rs) (hb : b ∈ rs)
    (hne : a ≠ b) : a.Disjoint b := by
  rcases Nat.lt_trichotomy a.start b.start with hlt | heq | hlt
  · exact .inl (h.apart a ha b hb hlt)
  · exact absurd (h.start_inj ha hb heq) hne
  · exact .inr (h.apart b hb a ha hlt)

/-- The nearest entry below ends before `start` exactly when every entry below does. The other
entries below end before this one begins, since the stored regions are apart. -/
theorem Holds.below_iff (h : Holds layout rs) (start : Nat) :
    (¬ (layout.regions.below start).any fun previous => previous.2.stop > start) ↔
      ∀ a ∈ rs, a.start < start → a.stop ≤ start := by
  cases hb : layout.regions.below start with
  | none =>
    have := OrdMap.below_eq_none hb
    refine iff_of_true (by simp) fun a ha hlt => absurd hlt ?_
    exact this _ ((h.mem_iff _ _ _).2 ha)
  | some e =>
    obtain ⟨hmem, hlt, hmax⟩ := OrdMap.below_eq_some hb
    have he : (⟨e.1, e.2.stop, e.2.kind⟩ : Placed) ∈ rs := (h.mem_iff _ _ _).1 hmem
    simp only [Option.any_some, gt_iff_lt, decide_eq_true_eq, not_lt]
    refine ⟨fun hle a ha hlta => ?_, fun hall => hall _ he hlt⟩
    rcases hmax _ ((h.mem_iff _ _ _).2 ha) hlta with hae | hae
    · rw [← hae] at hle; exact hle
    · exact (h.apart a ha _ he hae).trans hlt.le

/-- The nearest entry from `start` on starts after `stop` exactly when every such entry does. The
other entries begin behind this one, so it is enough to look at it. -/
theorem Holds.atLeast_iff (h : Holds layout rs) (start stop : Nat) :
    (¬ (layout.regions.atLeast start).any fun next => next.1 < stop) ↔
      ∀ a ∈ rs, start ≤ a.start → stop ≤ a.start := by
  cases hb : layout.regions.atLeast start with
  | none =>
    have := OrdMap.atLeast_eq_none hb
    refine iff_of_true (by simp) fun a ha hle => absurd hle ?_
    exact this _ ((h.mem_iff _ _ _).2 ha)
  | some e =>
    obtain ⟨hmem, hle, hmin⟩ := OrdMap.atLeast_eq_some hb
    have he : (⟨e.1, e.2.stop, e.2.kind⟩ : Placed) ∈ rs := (h.mem_iff _ _ _).1 hmem
    simp only [Option.any_some, decide_eq_true_eq, not_lt]
    refine ⟨fun hstop a ha hlea => ?_, fun hall => hall _ he hle⟩
    rcases hmin _ ((h.mem_iff _ _ _).2 ha) hlea with hae | hae
    · rw [← hae] at hstop; exact hstop
    · exact hstop.trans hae.le

/-- One call succeeds exactly when the region is nonempty and compatible with all recorded ones,
and then the map stores one region more. -/
theorem Holds.add (h : Holds layout rs) :
    (∃ layout', layout.add r.start r.stop r.kind structure_ = .ok layout') ↔
      r.start < r.stop ∧ ∀ a ∈ rs, a.Compatible r := by
  unfold Layout.add
  cases hf : layout.regions.find? r.start with
  | some existing =>
    have hmem : (⟨r.start, existing.stop, existing.kind⟩ : Placed) ∈ rs :=
      (h.mem_iff _ _ _).1 (OrdMap.find?_eq_some.1 hf)
    simp only [Except.bind_eq_ok, require_eq_ok, Except.pure_eq_ok]
    constructor
    · rintro ⟨_, _, hlt, _, ⟨hstop, hkind, hshare⟩, _⟩
      have hr : (⟨r.start, existing.stop, existing.kind⟩ : Placed) = r := by
        rw [hstop, hkind]
      rw [hr] at hmem
      refine ⟨hlt, fun a ha => ?_⟩
      by_cases har : a = r
      · exact .inr ⟨har, har ▸ hshare⟩
      · exact .inl (h.disjoint_of_ne ha hmem har)
    · rintro ⟨hlt, hall⟩
      have hne := h.nonempty _ hmem
      rcases hall _ hmem with hd | ⟨hr, hshare⟩
      · rcases hd with hd | hd <;> dsimp only at hd hne <;> omega
      · exact ⟨layout, (), hlt, (), ⟨by rw [← hr], by rw [← hr], by rw [← hr]; exact hshare⟩, rfl⟩
  | none =>
    have hnew : ∀ a ∈ rs, a.start ≠ r.start := fun a ha heq =>
      OrdMap.find?_eq_none.1 hf _ (heq ▸ (h.mem_iff a.start a.stop a.kind).2 ha)
    simp only [Except.bind_eq_ok, require_eq_ok, Except.pure_eq_ok, h.below_iff, h.atLeast_iff]
    constructor
    · rintro ⟨_, _, hlt, _, hb, _, ha, _⟩
      refine ⟨hlt, fun a hma => .inl ?_⟩
      rcases Nat.lt_or_ge a.start r.start with hc | hc
      · exact .inl (hb a hma hc)
      · exact .inr (ha a hma hc)
    · rintro ⟨hlt, hall⟩
      have hdis : ∀ a ∈ rs, a.Disjoint r := fun a ha =>
        (hall a ha).resolve_right fun he => hnew a ha (by rw [he.1])
      refine ⟨_, (), hlt, (), fun a ha hc => ?_, (), fun a ha hc => ?_, rfl⟩
      · have := h.nonempty a ha
        rcases hdis a ha with hd | hd <;> omega
      · have := h.nonempty a ha
        rcases hdis a ha with hd | hd <;> omega

/-- A successful call keeps what the map stores, with the region that was added. The regions stay
apart, because the call has compared the new one with its neighbours and those stand for all
others. -/
theorem Holds.of_add (h : Holds layout rs) {layout' : Layout}
    (hadd : layout.add r.start r.stop r.kind structure_ = .ok layout') :
    Holds layout' (rs ++ [r]) := by
  obtain ⟨hlt, hall⟩ := h.add.1 ⟨layout', hadd⟩
  have hnon : ∀ a ∈ rs ++ [r], a.start < a.stop := by
    intro a ha
    rcases List.mem_append.1 ha with ha | ha
    · exact h.nonempty a ha
    · rw [List.mem_singleton.1 ha]; exact hlt
  have hcompat : ∀ a ∈ rs ++ [r], ∀ b ∈ rs ++ [r], a.start < b.start → a.stop ≤ b.start := by
    have hcase : ∀ a ∈ rs, (a.start < r.start → a.stop ≤ r.start) ∧
        (r.start < a.start → r.stop ≤ a.start) := by
      intro a ha
      have := h.nonempty a ha
      rcases hall a ha with hd | ⟨rfl, _⟩
      · rcases hd with hd | hd <;> constructor <;> omega
      · constructor <;> intro hc <;> omega
    intro a ha b hb hlt
    rcases List.mem_append.1 ha with ha | ha <;> rcases List.mem_append.1 hb with hb | hb
    · exact h.apart a ha b hb hlt
    · rw [List.mem_singleton.1 hb] at hlt ⊢; exact (hcase a ha).1 hlt
    · rw [List.mem_singleton.1 ha] at hlt ⊢; exact (hcase b hb).2 hlt
    · rw [List.mem_singleton.1 ha, List.mem_singleton.1 hb] at hlt; omega
  refine ⟨fun start stop kind => ?_, hnon, hcompat⟩
  unfold Layout.add at hadd
  cases hf : layout.regions.find? r.start with
  | some existing =>
    have hmem := OrdMap.find?_eq_some.1 hf
    simp only [hf, Except.bind_eq_ok, require_eq_ok, Except.pure_eq_ok] at hadd
    obtain ⟨_, _, _, ⟨hstop, hkind, _⟩, rfl⟩ := hadd
    have hr : r ∈ rs := by
      have := (h.mem_iff _ _ _).1 hmem
      rwa [hstop, hkind] at this
    rw [h.mem_iff, List.mem_append, List.mem_singleton]
    exact ⟨.inl, fun hc => hc.elim id fun he => he ▸ hr⟩
  | none =>
    simp only [hf, Except.bind_eq_ok, require_eq_ok, Except.pure_eq_ok] at hadd
    obtain ⟨_, _, _, _, _, _, rfl⟩ := hadd
    rw [← OrdMap.find?_eq_some, OrdMap.find?_insert, List.mem_append, List.mem_singleton]
    split
    · next hs =>
      subst hs
      have hno : ∀ stop kind, (⟨r.start, stop, kind⟩ : Placed) ∉ rs := fun stop kind hm =>
        OrdMap.find?_eq_none.1 hf _ ((h.mem_iff _ _ _).2 hm)
      simp only [Option.some.injEq, Region.mk.injEq, hno, false_or]
      constructor
      · rintro ⟨rfl, rfl⟩; rfl
      · intro he; rw [← he]; exact ⟨rfl, rfl⟩
    · next hs =>
      rw [OrdMap.find?_eq_some, h.mem_iff]
      exact ⟨.inl, fun hc => hc.resolve_right fun he => hs (by rw [← he])⟩

/-- Records a sequence of regions. -/
def addAll (layout : Layout) (rs : List (Placed × String)) : Except Error Layout :=
  rs.foldlM (fun layout r => layout.add r.1.start r.1.stop r.1.kind r.2) layout

/-- A sequence of calls on a map that holds `rs` succeeds exactly when the new regions are nonempty
and compatible with `rs` and with each other. -/
theorem Holds.addAll (h : Holds layout rs) {new : List (Placed × String)} :
    (∃ layout', layout.addAll new = .ok layout') ↔
      (∀ r ∈ new, r.1.start < r.1.stop ∧ ∀ a ∈ rs, a.Compatible r.1) ∧
        new.Pairwise fun a b => a.1.Compatible b.1 := by
  induction new generalizing layout rs with
  | nil => simp [Layout.addAll]
  | cons r new ih =>
    rw [List.pairwise_cons, List.forall_mem_cons]
    unfold Layout.addAll
    simp only [List.foldlM_cons, Except.bind_eq_ok]
    constructor
    · rintro ⟨layout', layout₁, hadd, hrest⟩
      obtain ⟨h1, h2⟩ := (ih (h.of_add hadd)).1 ⟨layout', hrest⟩
      refine ⟨⟨h.add.1 ⟨_, hadd⟩, fun b hb => ⟨(h1 b hb).1, fun a ha => ?_⟩⟩, fun b hb => ?_, h2⟩
      · exact (h1 b hb).2 a (List.mem_append_left _ ha)
      · exact (h1 b hb).2 r.1 (by simp)
    · rintro ⟨⟨hr, hnew⟩, hrnew, hpair⟩
      obtain ⟨layout₁, hadd⟩ := (@Holds.add _ _ r.1 r.2 h).2 hr
      have hall : ∀ b ∈ new, ∀ a ∈ rs ++ [r.1], a.Compatible b.1 := by
        intro b hb a ha
        rcases List.mem_append.1 ha with ha | ha
        · exact (hnew b hb).2 a ha
        · rw [List.mem_singleton.1 ha]; exact hrnew b hb
      obtain ⟨layout', hrest⟩ :=
        (ih (h.of_add hadd)).2 ⟨fun b hb => ⟨(hnew b hb).1, hall b hb⟩, hpair⟩
      exact ⟨layout', layout₁, hadd, hrest⟩

/-- A sequence of successful calls keeps what the map stores, with all the regions that were added.
This is the run lemma to `Holds.of_add`. -/
theorem Holds.of_addAll (h : Holds layout rs) {new : List (Placed × String)} {layout' : Layout}
    (hadd : layout.addAll new = .ok layout') : Holds layout' (rs ++ new.map (·.1)) := by
  induction new generalizing layout rs with
  | nil => simp only [Layout.addAll, List.foldlM_nil, Except.pure_eq_ok] at hadd; simpa [← hadd] using h
  | cons r new ih =>
    simp only [Layout.addAll, List.foldlM_cons, Except.bind_eq_ok] at hadd
    obtain ⟨layout₁, h1, h2⟩ := hadd
    simpa using ih (h.of_add h1) h2

end

/-- The calls on a fresh map succeed exactly when every region is nonempty and every two regions
are compatible. -/
theorem addAll_eq_ok {rs : List (Placed × String)} :
    (∃ layout, new.addAll rs = .ok layout) ↔
      (∀ r ∈ rs, r.1.start < r.1.stop) ∧ rs.Pairwise fun a b => a.1.Compatible b.1 := by
  simpa using @Holds.addAll new [] Holds.new rs

/-- The calls on a fresh map succeed or fail whatever their order. -/
theorem addAll_isOk_perm {rs rs' : List (Placed × String)} (h : rs'.Perm rs) :
    (∃ layout, new.addAll rs' = .ok layout) ↔ ∃ layout, new.addAll rs = .ok layout := by
  have hpair := h.pairwise_iff (R := fun a b : Placed × String => a.1.Compatible b.1)
    fun {_ _} => Placed.Compatible.symm
  simp only [addAll_eq_ok, hpair, h.mem_iff]

/-- The entries of a map that holds `rs` end before the later ones start. -/
theorem Holds.pairwise_entries {layout : Layout} {rs : List Placed} (h : Holds layout rs) :
    layout.regions.entries.Pairwise fun a b => a.2.stop ≤ b.1 := by
  have hmem : ∀ e ∈ layout.regions.entries, (⟨e.1, e.2.stop, e.2.kind⟩ : Placed) ∈ rs :=
    fun e he => (h.mem_iff e.1 e.2.stop e.2.kind).1 he
  refine layout.regions.sorted.imp_of_mem fun {a b} ha hb hlt => ?_
  exact h.apart _ (hmem a ha) _ (hmem b hb) hlt

/-- The region map is an exact check of overlaps: the calls on a fresh map succeed exactly when
every region is nonempty and every two are compatible, in any order; and whenever the calls so far
succeeded, the map stores exactly their regions, and these are disjoint. -/
theorem addAll_exact (rs : List (Placed × String)) :
    ((∃ layout, new.addAll rs = .ok layout) ↔
      (∀ r ∈ rs, r.1.start < r.1.stop) ∧ rs.Pairwise fun a b => a.1.Compatible b.1) ∧
    (∀ rs', rs'.Perm rs →
      ((∃ layout, new.addAll rs' = .ok layout) ↔ ∃ layout, new.addAll rs = .ok layout)) ∧
    ∀ called later layout, rs = called ++ later → new.addAll called = .ok layout →
      (∀ start stop kind, (start, ⟨stop, kind⟩) ∈ layout.regions.entries ↔
        (⟨start, stop, kind⟩ : Placed) ∈ called.map (·.1)) ∧
      layout.regions.entries.Pairwise fun a b => a.2.stop ≤ b.1 := by
  refine ⟨addAll_eq_ok, fun rs' => addAll_isOk_perm, fun called later layout _ hadd => ?_⟩
  have h := Holds.new.of_addAll hadd
  exact ⟨by simpa using h.mem_iff, h.pairwise_entries⟩

end Layout

end Zwirn.Adls
