import Zwirn.Adls.Rewrite

/-!
# Rewriting round-trips

One change turns a buffer that holds a view into a buffer that holds the view with the string of
one source moved and replaced (`Accepts.change`): the patched slot lies in the table of its object
and shares no byte with anything else the walk reads, and the appended string lies behind all of
it. Over all changes of a batch this gives `Accepts.changes`, and with it the round trip of
`Document.rewrite`.
-/

namespace Zwirn.Adls

open Lib

/-! ## One change -/

/-- Where the string of the next change goes. -/
def newPlace (output : Bytes) (text : Str) : StringPlace :=
  ⟨output.length + padding output.length, utf8Len text⟩

/-- The string of a change starts at a multiple of four. -/
theorem newPlace_aligned (output : Bytes) (text : Str) :
    (newPlace output text).location % 4 = 0 := by
  simp only [newPlace, padding, u32Size]; omega

/-- What a buffer holds after one change of the slot at `loc`. Every old byte outside of the slot is
as it was, and the new string stands behind them, where the slot leads. -/
structure Changed (b b' : Bytes) (loc : Nat) (text : Str) : Prop where
  length_eq : b'.length = (newPlace b text).stop
  same : ∀ i, i < b.length → i < loc ∨ loc + 4 ≤ i → b'[i]? = b[i]?
  slot : leWord (slice b' loc 4) = (newPlace b text).location - loc
  size : leWord (slice b' (newPlace b text).location 4) = utf8Len text
  content : slice b' (newPlace b text).bytesLocation (utf8Len text) = encode text
  terminator : b'[(newPlace b text).bytesLocation + utf8Len text]? = some 0

/-- A change within the size limit succeeds. The new buffer is written out, and the parts of
`Changed` are read off it: the padding, the length, the bytes and the terminator stand behind the
old bytes, and the slot leads to them. -/
theorem appendChange_ok {b : Bytes} {loc : Nat} {text : Str} (hloc : loc + 4 ≤ b.length)
    (hsize : paddedSize b.length (utf8Len text) ≤ maxRewrittenAdlsSize) :
    ∃ b', appendChange b ⟨loc, text, utf8Len text⟩ = .ok b' ∧ Changed b b' loc text := by
  have hmax : maxRewrittenAdlsSize < u32Bound := by decide
  have hu : u32Bound = 256 ^ 4 := by decide
  unfold paddedSize u32Size at hsize
  generalize hpad : List.replicate (padding b.length) (0 : UInt8) = pad
  have hpl : pad.length = padding b.length := by rw [← hpad, List.length_replicate]
  have hbl : (b ++ pad).length = b.length + padding b.length := by
    rw [List.length_append, hpl]
  refine ⟨patch (b ++ pad ++ leBytes 4 (utf8Len text) ++ encode text ++ [0]) loc
    (leBytes 4 ((b ++ pad).length - loc)), ?_, ?_⟩
  · simp only [appendChange, Except.bind_eq_ok, okOr_eq_ok, Option.bind_eq_some_iff,
      checkedSub_eq_some, u32TryFrom_eq_some, Except.pure_eq_ok, hpad]
    exact ⟨_, ⟨_, ⟨by omega, rfl⟩, by omega, rfl⟩, rfl⟩
  have hlen : utf8Len text = (encode text).length := rfl
  have hlw : (leBytes 4 (utf8Len text)).length = 4 := leBytes_length _ _
  have hslot : ∀ n, loc + (leBytes 4 n).length ≤
      (b ++ pad ++ leBytes 4 (utf8Len text) ++ encode text ++ [0]).length := by
    intro n; simp only [List.length_append, leBytes_length]; omega
  have hbehind : ∀ s n, b.length ≤ s → slice (patch (b ++ pad ++ leBytes 4 (utf8Len text) ++
      encode text ++ [0]) loc (leBytes 4 ((b ++ pad).length - loc))) s n =
      slice (b ++ pad ++ leBytes 4 (utf8Len text) ++ encode text ++ [0]) s n := fun s n hs =>
    slice_patch_of_disjoint (hslot _) (.inr (by rw [leBytes_length]; omega))
  constructor
  · rw [patch_length (hslot _)]
    simp only [List.length_append, List.length_singleton, leBytes_length, hpl, StringPlace.stop,
      newPlace, u32Size]
    omega
  · intro i hi hd
    have hin : (b ++ pad ++ leBytes 4 (utf8Len text) ++ encode text ++ [0])[i]? = b[i]? := by
      simp only [List.append_assoc]; exact List.getElem?_append_left hi
    rw [← hin]
    rcases hd with hd | hd
    · exact getElem?_patch_of_lt (by have := hslot 0; omega) hd
    · exact getElem?_patch_of_ge (hslot _) (by rw [leBytes_length]; omega)
  · have := slice_patch_self (hslot ((b ++ pad).length - loc))
    rw [leBytes_length] at this
    rw [this, leWord_leBytes (by omega), hbl]
    rfl
  · rw [show (newPlace b text).location = (b ++ pad).length from hbl.symm, hbehind _ _ (by omega)]
    have := slice_middle (b ++ pad) (leBytes 4 (utf8Len text)) (encode text ++ [0])
    rw [hlw, ← List.append_assoc] at this
    rw [this, leWord_leBytes (by omega)]
  · have hpl : (newPlace b text).bytesLocation =
        (b ++ pad ++ leBytes 4 (utf8Len text)).length := by
      rw [List.length_append, hlw, hbl]; rfl
    rw [hpl, hbehind _ _ (by rw [← hpl]; simp only [StringPlace.bytesLocation, newPlace]; omega)]
    exact slice_middle (b ++ pad ++ leBytes 4 (utf8Len text)) (encode text) [0]
  · have hpl : (newPlace b text).bytesLocation + utf8Len text =
        (b ++ pad ++ leBytes 4 (utf8Len text) ++ encode text).length := by
      rw [List.length_append, List.length_append, hlw, hbl]; rfl
    rw [getElem?_patch_of_ge (hslot _) (by rw [leBytes_length, hpl]; simp; omega), hpl]
    simp

/-! ## Where the walk reads -/

section
variable {p p' : Parser} {t : Table} {el i : Nat} {o : ObjectView}

/-- A field lies in its table, behind the table's first word. -/
theorem Parser.HoldsField.range {j w al loc : Nat} (hf : p.HoldsField t j w al loc)
    (ht : p.HoldsTable t) : t.location + 4 ≤ loc ∧ loc + w ≤ t.location + t.objectLength := by
  have hmem : 4 + 2 * j ∈ entryOffsets t.vtableLength :=
    mem_entryOffsets.2 ⟨by omega, by have := hf.entry_le; omega, by omega⟩
  have := (ht.entries _ hmem hf.offset_ne).1
  exact ⟨by rw [hf.loc_eq]; omega, hf.end_le⟩

/-- Two different word fields of one table share no byte. -/
theorem Parser.HoldsField.apart {j k l m : Nat} (hj : p.HoldsField t j 4 4 l)
    (hk : p.HoldsField t k 4 4 m) (hne : j ≠ k) : l + 4 ≤ m ∨ m + 4 ≤ l := by
  have hmem : 4 + 2 * k ∈ entryOffsets t.vtableLength :=
    mem_entryOffsets.2 ⟨by omega, by have := hk.entry_le; omega, by omega⟩
  have hal := hj.alone _ hmem (by omega)
  dsimp only at hal
  rw [← hk.loc_eq] at hal
  have h1 := hj.aligned
  have h2 := hk.aligned
  omega

/-- A string that was read lies in the buffer. -/
theorem Parser.sourceString_range {loc : Nat} {s : StringPlace} (h : p.sourceString loc = .ok s) :
    s.stop ≤ p.bytes.length := by
  have := (List.getElem?_eq_some_iff.1 (Parser.sourceString_eq_ok.1 h).2.2.2).1
  simp only [StringPlace.stop, StringPlace.bytesLocation] at this ⊢
  omega

/-- The source of an object is read from its vtable, its slot and its string. So a change outside of
these three places leaves what is read. -/
theorem Parser.ReadsSource.congr (hlen : p.bytes.length ≤ p'.bytes.length) (ht : p.HoldsTable t)
    {typeId : Nat} {source : Option SourceView} (h : p.ReadsSource t typeId source)
    (hv : p.Same p' t.vtableLocation (t.vtableLocation + t.vtableLength))
    (hs : ∀ s ∈ source, p.Same p' s.fieldLocation (s.fieldLocation + 4) ∧
      p.Same p' s.place.location s.place.stop) : p'.ReadsSource t typeId source := by
  cases source with
  | none => exact fun kind hk => Table.field_congr hlen ht (h kind hk) hv
  | some s =>
    obtain ⟨hkind, hfield, hplace, hdec⟩ := h
    obtain ⟨hslot, hstr⟩ := hs s rfl
    refine ⟨hkind, Table.field_congr hlen ht hfield hv,
      Parser.sourceString_congr hlen hplace hslot hstr, ?_⟩
    rw [slice_congr fun i h1 h2 => hstr i ?_ ?_, hdec]
    · simp only [StringPlace.bytesLocation] at h1; omega
    · simp only [StringPlace.stop, StringPlace.bytesLocation] at h2 ⊢; omega

/-- An object is read from its element, the first word of its table, its vtable, its type id and
its source. -/
theorem Parser.ReadsObject.congr (hlen : p.bytes.length ≤ p'.bytes.length)
    (h : p.ReadsObject el i o)
    (hel : p.Same p' (el + i * u32Size) (el + i * u32Size + 4))
    (hw : p.Same p' o.table.location (o.table.location + 4))
    (hv : p.Same p' o.table.vtableLocation (o.table.vtableLocation + o.table.vtableLength))
    (hf : ∀ l, p.HoldsField o.table 0 4 4 l → p.Same p' l (l + 4))
    {source : Option SourceView} (hs : p'.ReadsSource o.table o.typeId source) :
    p'.ReadsObject el i { o with source := source } := by
  obtain ⟨_, ht⟩ := Parser.table_spec h.table
  refine ⟨h.index_lt, h.element_lt, Parser.followUoffset_congr hlen h.location hel,
    Parser.table_congr hlen h.table hw hv, ?_, h.root, hs⟩
  have htype := h.typeId
  simp only [Parser.typeId, Except.bind_eq_ok] at htype ⊢
  obtain ⟨f, hfield, htype⟩ := htype
  refine ⟨f, Table.field_congr hlen ht hfield hv, ?_⟩
  cases f with
  | none => exact htype
  | some l => exact Parser.readU32_congr hlen htype (hf l (Table.field_spec hfield))

end

section
variable {b b' : Bytes} {v : DocumentView} {l₁ l₂ : List ObjectView} {o : ObjectView}
  {s : SourceView}

/-- Every region of an accepted buffer lies in it. The cases are the kinds of region: the header,
the root, the pool, and those of the objects. -/
theorem Accepts.region_le (h : Accepts b v) : ∀ r ∈ v.regions, r.1.stop ≤ b.length := by
  intro r hr
  simp only [DocumentView.regions, Table.regions, List.cons_append, List.nil_append,
    List.mem_cons, List.mem_flatMap] at hr
  have hroot := (Parser.table_spec h.root).2
  rcases hr with rfl | rfl | rfl | rfl | ⟨o, ho, hr⟩
  · exact h.header
  · exact hroot.table_in
  · exact hroot.vtable_in
  · exact (Parser.requireRange_eq_ok.1 h.elements).2
  · obtain ⟨i, hi⟩ := List.getElem?_of_mem ho
    have hobj := h.objects i o hi
    have ht := (Parser.table_spec hobj.table).2
    simp only [ObjectView.regions, Table.regions, List.cons_append, List.nil_append,
      List.mem_cons, List.mem_map, Option.mem_toList] at hr
    rcases hr with rfl | rfl | ⟨s, hs, rfl⟩
    · exact ht.table_in
    · exact ht.vtable_in
    · have hsrc := hobj.source
      rw [hs] at hsrc
      exact Parser.sourceString_range hsrc.2.2.1

/-- Every other region is disjoint from the table of an object. Tables cannot be shared, so the
regions that were recorded before and after this one are apart from it. -/
theorem Accepts.disjoint_table (h : Accepts b v) (hv : v.objects = l₁ ++ o :: l₂) :
    ∀ r ∈ ((DocumentView.headerPlaced, "ADLS header") :: v.root.regions "root table" ++
        (v.poolPlaced, "patch-object vector") :: l₁.flatMap ObjectView.regions) ++
        ((o.table.placedVtable, "patch object") ::
          (o.source.toList.map fun s => (s.place.placed, "source string")) ++
          l₂.flatMap ObjectView.regions),
      r.1.Disjoint o.table.placed := by
  have hpair := (Layout.addAll_eq_ok.1 h.regions).2
  have hsplit : v.regions =
      ((DocumentView.headerPlaced, "ADLS header") :: v.root.regions "root table" ++
        (v.poolPlaced, "patch-object vector") :: l₁.flatMap ObjectView.regions) ++
      (o.table.placed, "patch object") :: ((o.table.placedVtable, "patch object") ::
          (o.source.toList.map fun s => (s.place.placed, "source string")) ++
          l₂.flatMap ObjectView.regions) := by
    simp [DocumentView.regions, hv, ObjectView.regions, Table.regions]
  rw [hsplit, List.pairwise_append, List.pairwise_cons] at hpair
  obtain ⟨-, ⟨hafter, -⟩, hbefore⟩ := hpair
  intro r hr
  rcases List.mem_append.1 hr with hr | hr
  · exact ((hbefore r hr (o.table.placed, "patch object") (by simp)).symm.disjoint
      (.inr rfl)).symm
  · exact ((hafter r hr).disjoint (.inr rfl)).symm

end

/-! ## One change keeps the buffer accepted -/

/-- An object with another source. -/
def ObjectView.withSource (o : ObjectView) (s : SourceView) (place : StringPlace) (text : Str) :
    ObjectView :=
  { o with source := some { s with place := place, source := text } }

/-- A change makes the buffer no shorter. -/
theorem Changed.length_le {b b' : Bytes} {loc : Nat} {text : Str} (hc : Changed b b' loc text) :
    b.length ≤ b'.length := by
  have := hc.length_eq
  simp only [StringPlace.stop, newPlace] at this
  omega

/-- The new string is read through the patched slot. -/
theorem Changed.sourceString {b b' : Bytes} {loc : Nat} {text : Str} (hc : Changed b b' loc text)
    (hal : loc % 4 = 0) (hin : loc + 4 ≤ b.length) (hmax : b'.length ≤ maxRewrittenAdlsSize) :
    Parser.sourceString ⟨b'⟩ loc = .ok (newPlace b text) := by
  have hbound : maxRewrittenAdlsSize < usizeBound := by decide
  have hstop := hc.length_eq
  have hpl : (newPlace b text).stop = (newPlace b text).location + 4 + utf8Len text + 1 := rfl
  have hle : b.length ≤ (newPlace b text).location := Nat.le_add_right _ _
  refine Parser.sourceString_eq_ok.2 ⟨?_, ?_, by omega, hc.terminator⟩
  · exact Parser.followUoffset_of hal (show loc + 4 ≤ b'.length by omega) (by omega)
      (newPlace_aligned b text) (show _ < b'.length by omega) hc.slot (by omega) (by omega)
  · exact Parser.readU32_eq_ok.2 ⟨by omega, show _ ≤ b'.length by omega, hc.size.symm⟩

section
variable {b b' : Bytes} {v : DocumentView} {l₁ l₂ : List ObjectView} {o : ObjectView}
  {s : SourceView} {text : Str} (h : Accepts b v) (hv : v.objects = l₁ ++ o :: l₂)
  (hs : o.source = some s) (hc : Changed b b' s.fieldLocation text)
include h hv hs

/-- The slot of a source lies in the table of its object, behind the first word. -/
theorem Accepts.slot : Parser.HoldsTable ⟨b⟩ o.table ∧
    Parser.HoldsField ⟨b⟩ o.table 10 4 4 s.fieldLocation ∧
    o.table.location + 4 ≤ s.fieldLocation ∧
    s.fieldLocation + 4 ≤ o.table.location + o.table.objectLength := by
  have hobj := h.objects l₁.length o (by simp [hv])
  have ht := (Parser.table_spec hobj.table).2
  have hsource := hobj.source
  rw [hs] at hsource
  have hslot := Table.field_spec hsource.2.1
  exact ⟨ht, hslot, hslot.range ht⟩

/-- The regions of the changed view are still compatible: the new string lies behind the rest. What
lies before and behind the region of the old string stays as it was. -/
theorem Accepts.change_regions : ∃ layout, Layout.new.addAll
    (DocumentView.regions { v with
      objects := l₁ ++ o.withSource s (newPlace b text) text :: l₂ }) = .ok layout := by
  obtain ⟨hnon, hpair⟩ := Layout.addAll_eq_ok.1 h.regions
  have hle := h.region_le
  -- the list around the region of the string
  have hsplit : ∃ A B, v.regions = A ++ (s.place.placed, "source string") :: B ∧
      DocumentView.regions { v with
        objects := l₁ ++ o.withSource s (newPlace b text) text :: l₂ } =
        A ++ ((newPlace b text).placed, "source string") :: B := by
    refine ⟨(DocumentView.headerPlaced, "ADLS header") :: v.root.regions "root table" ++
      (v.poolPlaced, "patch-object vector") :: (l₁.flatMap ObjectView.regions ++
        o.table.regions "patch object"), l₂.flatMap ObjectView.regions, ?_, ?_⟩
    · simp [DocumentView.regions, hv, ObjectView.regions, hs]
    · simp [DocumentView.regions, hv, ObjectView.regions, ObjectView.withSource,
        DocumentView.poolPlaced]
  obtain ⟨A, B, hA, hB⟩ := hsplit
  rw [hA] at hnon hpair hle
  rw [hB, Layout.addAll_eq_ok]
  have hnew : ∀ r ∈ A ++ B, r.1.Disjoint (newPlace b text).placed := by
    intro r hr
    have := hle r (by simp only [List.mem_append, List.mem_cons] at hr ⊢; tauto)
    refine .inl (this.trans ?_)
    exact Nat.le_add_right _ _
  rw [List.pairwise_append, List.pairwise_cons] at hpair ⊢
  obtain ⟨hpA, ⟨-, hpB⟩, hAB⟩ := hpair
  constructor
  · intro r hr
    simp only [List.mem_append, List.mem_cons] at hr hnon
    rcases hr with hr | rfl | hr
    · exact hnon r (.inl hr)
    · simp only [StringPlace.placed, StringPlace.stop]; omega
    · exact hnon r (.inr (.inr hr))
  · refine ⟨hpA, ⟨fun r hr => .inl (hnew r (List.mem_append_right _ hr)).symm, hpB⟩,
      fun a ha r hr => ?_⟩
    rcases List.mem_cons.1 hr with rfl | hr
    · exact .inl (hnew a (List.mem_append_left _ ha))
    · exact hAB a ha r (List.mem_cons_of_mem _ hr)

include hc

/-- A window of a region that is disjoint from the table of the changed object reads as before. -/
theorem Accepts.change_same {r : Placed × String} (hr : r ∈ v.regions)
    (hd : r.1.Disjoint o.table.placed) {x y : Nat} (hx : r.1.start ≤ x) (hy : y ≤ r.1.stop) :
    Parser.Same ⟨b⟩ ⟨b'⟩ x y := by
  obtain ⟨_, _, hlo, hhi⟩ := h.slot hv hs
  have hb := h.region_le r hr
  intro i hi1 hi2
  refine hc.same i (by omega) ?_
  rcases hd with hd | hd <;> simp only [Table.placed] at hd <;> omega

/-- The element of every object reads as before. -/
theorem Accepts.change_element {i : Nat} (hi : i < v.objects.length) : Parser.Same ⟨b⟩ ⟨b'⟩
    (v.poolLocation + u32Size + i * u32Size) (v.poolLocation + u32Size + i * u32Size + 4) := by
  refine h.change_same hv hs hc (r := (v.poolPlaced, "patch-object vector"))
    (by simp [DocumentView.regions]) (h.disjoint_table hv _ (by simp)) ?_ ?_
  · simp only [DocumentView.poolPlaced]; omega
  · simp only [DocumentView.poolPlaced, u32Size]; omega

/-- An object on either side of the changed one reads as before. Nothing of what it reads from lies
in the patched slot, since that is part of the table of the changed object. -/
theorem Accepts.change_other {i : Nat} {o' : ObjectView} (hi : v.objects[i]? = some o')
    (hside : o' ∈ l₁ ∨ o' ∈ l₂) :
    Parser.ReadsObject ⟨b'⟩ (v.poolLocation + u32Size) i o' := by
  have hlen := hc.length_le
  have hobj := h.objects i o' hi
  have ht := (Parser.table_spec hobj.table).2
  have hsize := ht.size_le
  have hreg : ∀ r ∈ o'.regions, ∀ x y, r.1.start ≤ x → y ≤ r.1.stop →
      Parser.Same ⟨b⟩ ⟨b'⟩ x y := by
    intro r hr x y
    refine h.change_same hv hs hc ?_ (h.disjoint_table hv r ?_)
    · simp only [DocumentView.regions, List.mem_append, List.mem_cons, List.mem_flatMap]
      exact .inr (.inr ⟨o', List.mem_of_getElem? hi, hr⟩)
    · rcases hside with hside | hside
      · exact List.mem_append_left _ (List.mem_append_right _
          (List.mem_cons_of_mem _ (List.mem_flatMap.2 ⟨o', hside, hr⟩)))
      · exact List.mem_append_right _ (List.mem_append_right _
          (List.mem_flatMap.2 ⟨o', hside, hr⟩))
  have htab := hreg (o'.table.placed, "patch object") (by simp [ObjectView.regions, Table.regions])
  have hvt := hreg (o'.table.placedVtable, "patch object")
    (by simp [ObjectView.regions, Table.regions]) _ _ (Nat.le_refl _) (Nat.le_refl _)
  refine hobj.congr hlen (h.change_element hv hs hc (List.getElem?_eq_some_iff.1 hi).1)
    (htab _ _ (Nat.le_refl _) (by simp only [Table.placed]; omega)) hvt
    (fun l hl => htab _ _ (by have := (hl.range ht).1; simp only [Table.placed]; omega)
      (hl.range ht).2)
    (hobj.source.congr hlen ht hvt fun s' hs' => ⟨?_, ?_⟩)
  · have hsrc := hobj.source
    rw [Option.mem_def.1 hs'] at hsrc
    have hr := (Table.field_spec hsrc.2.1).range ht
    exact htab _ _ (by simp only [Table.placed]; omega) hr.2
  · exact hreg (s'.place.placed, "source string")
      (by simp [ObjectView.regions, Option.mem_def.1 hs']) _ _ (Nat.le_refl _) (Nat.le_refl _)

/-- The changed object reads as before but for its source. Its table is read around the slot, and
its string at the new place. -/
theorem Accepts.change_self (hmax : b'.length ≤ maxRewrittenAdlsSize) :
    Parser.ReadsObject ⟨b'⟩ (v.poolLocation + u32Size) l₁.length
      (o.withSource s (newPlace b text) text) := by
  have hlen := hc.length_le
  have hobj := h.objects l₁.length o (by simp [hv])
  obtain ⟨ht, hslot, hlo, hhi⟩ := h.slot hv hs
  have htin : o.table.location + o.table.objectLength ≤ b.length := ht.table_in
  have hsize := ht.size_le
  have hsource := hobj.source
  rw [hs] at hsource
  have htab : ∀ x y, o.table.location ≤ x → y ≤ o.table.location + o.table.objectLength →
      y ≤ s.fieldLocation ∨ s.fieldLocation + 4 ≤ x → Parser.Same ⟨b⟩ ⟨b'⟩ x y :=
    fun x y hx hy hd j hj1 hj2 => hc.same j (by omega) (by omega)
  have hvt : Parser.Same ⟨b⟩ ⟨b'⟩ o.table.vtableLocation
      (o.table.vtableLocation + o.table.vtableLength) := by
    refine h.change_same hv hs hc (r := (o.table.placedVtable, "patch object")) ?_
      (h.disjoint_table hv _ (by simp)) (Nat.le_refl _) (Nat.le_refl _)
    simp [DocumentView.regions, hv, ObjectView.regions, Table.regions]
  refine hobj.congr hlen (h.change_element hv hs hc (by simp [hv]))
    (htab _ _ (Nat.le_refl _) (by omega) (.inl hlo)) hvt (fun l hl => ?_)
    ⟨hsource.1, Table.field_congr hlen ht hsource.2.1 hvt,
      hc.sourceString hslot.aligned (by omega) hmax, ?_⟩
  -- the type id lies beside the patched slot
  · have hr := hl.range ht
    exact htab _ _ (by omega) hr.2 (hl.apart hslot (by decide))
  · have := hc.content
    simp only [newPlace] at this ⊢
    rw [this, decode_encode]

/-- One change keeps the buffer accepted: the changed object has its new source, everything else
is read as before. -/
theorem Accepts.change (hmax : b'.length ≤ maxRewrittenAdlsSize) :
    Accepts b' { v with objects := l₁ ++ o.withSource s (newPlace b text) text :: l₂ } := by
  have hlen := hc.length_le
  have hroot := (Parser.table_spec h.root).2
  have hsize := hroot.size_le
  have hpf := (Table.field_spec h.poolField).range hroot
  have hn : (l₁ ++ o.withSource s (newPlace b text) text :: l₂).length = v.objects.length := by
    simp [hv]
  have hheader : ∀ x y, y ≤ 8 → Parser.Same ⟨b⟩ ⟨b'⟩ x y := fun x y =>
    h.change_same hv hs hc (r := (DocumentView.headerPlaced, "ADLS header"))
      (by simp [DocumentView.regions]) (h.disjoint_table hv _ (by simp)) (Nat.zero_le x)
  have hrootT : ∀ x y, v.root.location ≤ x → y ≤ v.root.location + v.root.objectLength →
      Parser.Same ⟨b⟩ ⟨b'⟩ x y := fun x y =>
    h.change_same hv hs hc (r := (v.root.placed, "root table"))
      (by simp [DocumentView.regions, Table.regions])
      (h.disjoint_table hv _ (by simp [Table.regions]))
  have hrootV : Parser.Same ⟨b⟩ ⟨b'⟩ v.root.vtableLocation
      (v.root.vtableLocation + v.root.vtableLength) :=
    h.change_same hv hs hc (r := (v.root.placedVtable, "root table"))
      (by simp [DocumentView.regions, Table.regions])
      (h.disjoint_table hv _ (by simp [Table.regions])) (Nat.le_refl _) (Nat.le_refl _)
  have hpool : Parser.Same ⟨b⟩ ⟨b'⟩ v.poolLocation (v.poolLocation + 4) :=
    h.change_same hv hs hc (r := (v.poolPlaced, "patch-object vector"))
      (by simp [DocumentView.regions]) (h.disjoint_table hv _ (by simp)) (Nat.le_refl _)
      (by simp only [DocumentView.poolPlaced, u32Size]; omega)
  refine ⟨h.header.trans hlen, ?_, ?_, ?_, ?_, ?_, ?_, by simp, ?_, ?_, ?_,
    h.change_regions hv hs⟩
  · exact (slice_congr fun i h1 h2 => hheader 4 8 (Nat.le_refl _) i h1 h2).trans h.identifier
  · exact Parser.followUoffset_congr hlen h.rootLocation (hheader 0 4 (by decide))
  · exact Parser.table_congr hlen h.root
      (hrootT v.root.location (v.root.location + 4) (Nat.le_refl _) (by omega)) hrootV
  · exact Table.field_congr hlen hroot h.poolField hrootV
  · exact Parser.followUoffset_congr hlen h.poolLocation (hrootT v.poolField _ (by omega) hpf.2)
  · rw [hn]; exact Parser.readU32_congr hlen h.count hpool
  · rw [hn]; exact Parser.requireRange_congr hlen h.elements
  · intro i o' hi
    dsimp only at hi ⊢
    rcases Nat.lt_trichotomy i l₁.length with hlt | rfl | hgt
    · rw [List.getElem?_append_left hlt] at hi
      exact h.change_other hv hs hc (by rw [hv, List.getElem?_append_left hlt, hi])
        (.inl (List.mem_of_getElem? hi))
    · obtain rfl : o.withSource s (newPlace b text) text = o' := by simpa using hi
      exact h.change_self hv hs hc hmax
    · obtain ⟨k, rfl⟩ : ∃ k, i = l₁.length + (k + 1) := ⟨i - l₁.length - 1, by omega⟩
      rw [List.getElem?_append_right (by omega), Nat.add_sub_cancel_left,
        List.getElem?_cons_succ] at hi
      refine h.change_other hv hs hc ?_ (.inr (List.mem_of_getElem? hi))
      rw [hv, List.getElem?_append_right (by omega), Nat.add_sub_cancel_left,
        List.getElem?_cons_succ, hi]
  · have := h.distinct
    simpa [hv, ObjectView.withSource] using this

end

/-! ## All changes of a batch -/

/-- The source fields among objects whose first has index `n`. -/
def sourceEntriesFrom (n : Nat) (os : List ObjectView) : List (Nat × SourceView) :=
  (os.zipIdx n).flatMap fun o => o.1.source.toList.map fun s => (o.2, s)

/-- The source fields of the first object come first, with its index. -/
theorem sourceEntriesFrom_cons (n : Nat) (o : ObjectView) (os : List ObjectView) :
    sourceEntriesFrom n (o :: os) =
      (o.source.toList.map fun s => (n, s)) ++ sourceEntriesFrom (n + 1) os := by
  simp [sourceEntriesFrom]

/-- The entries have the indexes of their objects, in order. So the sources of a document are found
by binary search. -/
theorem sourceEntriesFrom_index (n : Nat) (os : List ObjectView) :
    (∀ e ∈ sourceEntriesFrom n os, n ≤ e.1) ∧
      (sourceEntriesFrom n os).Pairwise (·.1 < ·.1) := by
  induction os generalizing n with
  | nil => simp [sourceEntriesFrom]
  | cons o os ih =>
    obtain ⟨hge, hpair⟩ := ih (n + 1)
    rw [sourceEntriesFrom_cons]
    constructor
    · intro e he
      rcases List.mem_append.1 he with he | he
      · obtain ⟨s, -, rfl⟩ := List.mem_map.1 he
        exact Nat.le_refl n
      · exact Nat.le_of_succ_le (hge e he)
    · refine List.pairwise_append.2 ⟨?_, hpair, fun a ha b hb => ?_⟩
      · cases o.source <;> simp
      · obtain ⟨s, -, rfl⟩ := List.mem_map.1 ha
        exact hge b hb

/-- The changes a batch makes to the objects from index `n` on. -/
def changesFrom (d : Nat) (want : SourceNode → Option Str) (n : Nat) (os : List ObjectView) :
    List Change :=
  (sourceEntriesFrom n os).filterMap fun e =>
    Document.changeOf want (SourceView.node d e) e.2.fieldLocation

/-- What an entry shows once the batch is applied. -/
def SourceView.wanted (d : Nat) (want : SourceNode → Option Str) (e : Nat × SourceView) :
    Nat × NodeKind × Nat × Str :=
  (e.1, e.2.kind, e.2.fieldLocation, (want (SourceView.node d e)).getD e.2.source)

/-- What an entry shows of its object: index, kind, slot and text. -/
def SourceView.shown (e : Nat × SourceView) : Nat × NodeKind × Nat × Str :=
  (e.1, e.2.kind, e.2.fieldLocation, e.2.source)

/-- The first object either adds no change and shows what is wanted, or adds one change. There is
none if the object has no source, if nothing is wanted for it, or if what is wanted is there
already. -/
theorem changesFrom_cons (d : Nat) (want : SourceNode → Option Str) (n : Nat) (o : ObjectView)
    (os : List ObjectView) :
    (changesFrom d want n (o :: os) = changesFrom d want (n + 1) os ∧
      ∀ s ∈ o.source, SourceView.wanted d want (n, s) = SourceView.shown (n, s)) ∨
    ∃ s t, o.source = some s ∧ want (SourceView.node d (n, s)) = some t ∧
      changesFrom d want n (o :: os) =
        ⟨s.fieldLocation, t, utf8Len t⟩ :: changesFrom d want (n + 1) os := by
  unfold changesFrom
  rw [sourceEntriesFrom_cons, List.filterMap_append]
  cases hos : o.source with
  | none => exact .inl ⟨rfl, by simp⟩
  | some s =>
    cases hc : Document.changeOf want (SourceView.node d (n, s)) s.fieldLocation with
    | none =>
      refine .inl ⟨by simp [hc], fun s' hs' => ?_⟩
      obtain rfl : s = s' := Option.some.inj hs'
      unfold Document.changeOf at hc
      simp only [SourceView.wanted, SourceView.shown]
      cases hw : want (SourceView.node d (n, s)) with
      | none => rfl
      | some t =>
        simp only [hw, ite_eq_left_iff, reduceCtorEq, imp_false, not_not] at hc
        rw [hc]; rfl
    | some c =>
      obtain ⟨t, hw, -, rfl⟩ := Document.changeOf_eq_some.1 hc
      exact .inr ⟨s, t, rfl, hw, by simp [hc]⟩

/-- The changes of the remaining objects are applied one by one: the buffer stays accepted, the
sources show the wanted texts, and bytes outside the changed slots stay. -/
theorem Accepts.changes {d : Nat} {want : SourceNode → Option Str} {v : DocumentView}
    {done rest : List ObjectView} {b : Bytes} (h : Accepts b { v with objects := done ++ rest })
    (hsize : changesFrom d want done.length rest ≠ [] → rewrittenSize b.length
      ((changesFrom d want done.length rest).map fun c => utf8Len c.replacement) ≤
        maxRewrittenAdlsSize) :
    ∃ b' rest', (changesFrom d want done.length rest).foldlM appendChange b = .ok b' ∧
      Accepts b' { v with objects := done ++ rest' } ∧
      (sourceEntriesFrom done.length rest').map SourceView.shown =
        (sourceEntriesFrom done.length rest).map (SourceView.wanted d want) ∧
      b.length ≤ b'.length ∧
      ∀ i, i < b.length → (∀ c ∈ changesFrom d want done.length rest,
        i < c.fieldLocation ∨ c.fieldLocation + 4 ≤ i) → b'[i]? = b[i]? := by
  induction rest generalizing done b with
  | nil => exact ⟨b, [], rfl, h, rfl, Nat.le_refl _, fun _ _ _ => rfl⟩
  | cons o rest ih =>
    have hcons : ∀ (o' : ObjectView) rest, done ++ o' :: rest = (done ++ [o']) ++ rest := by simp
    have hlen : ∀ o' : ObjectView, (done ++ [o']).length = done.length + 1 := by simp
    rcases changesFrom_cons d want done.length o rest with ⟨heq, hsame⟩ | ⟨s, t, hs, hw, heq⟩
    -- the object stays as it is
    · rw [heq] at hsize ⊢
      rw [hcons] at h
      obtain ⟨b', rest', hfold, hacc, hshown, hle, hframe⟩ := ih h (by rwa [hlen])
      rw [hlen] at hfold hshown hframe
      refine ⟨b', o :: rest', hfold, by rwa [hcons], ?_, hle, hframe⟩
      rw [sourceEntriesFrom_cons, sourceEntriesFrom_cons, List.map_append, List.map_append, hshown]
      congr 1
      cases hos : o.source with
      | none => rfl
      | some s => simp [hsame s hos]
    -- its source is replaced
    · rw [heq] at hsize ⊢
      have hsize := hsize (List.cons_ne_nil _ _)
      obtain ⟨ht, -, hlo, hhi⟩ := h.slot rfl hs
      have htin : o.table.location + o.table.objectLength ≤ b.length := ht.table_in
      have hstep : paddedSize b.length (utf8Len t) ≤ maxRewrittenAdlsSize :=
        (le_rewrittenSize _ _).trans hsize
      obtain ⟨b₁, happ, hch⟩ := appendChange_ok (show s.fieldLocation + 4 ≤ b.length by omega) hstep
      have hb₁ : b₁.length = paddedSize b.length (utf8Len t) := hch.length_eq
      have hacc₁ := h.change rfl hs hch (by omega)
      dsimp only at hacc₁
      rw [hcons] at hacc₁
      obtain ⟨b', rest', hfold, hacc, hshown, hle, hframe⟩ :=
        ih hacc₁ fun _ => by rw [hlen, hb₁]; exact hsize
      rw [hlen] at hfold hshown hframe
      refine ⟨b', o.withSource s (newPlace b t) t :: rest', ?_, by rwa [hcons], ?_,
        hch.length_le.trans hle, fun i hi hout => ?_⟩
      · rw [List.foldlM_cons, Except.bind_eq_ok]
        exact ⟨b₁, happ, hfold⟩
      · rw [sourceEntriesFrom_cons, sourceEntriesFrom_cons, List.map_append, List.map_append,
          hshown]
        simp [ObjectView.withSource, hs, SourceView.shown, SourceView.wanted, hw]
      · rw [List.forall_mem_cons] at hout
        rw [hframe i (hi.trans_le hch.length_le) hout.2]
        exact hch.same i hi hout.1

/-! ## The whole batch -/

section
variable {d : Nat} {bytes : Bytes} {doc : Document}

/-- The document of a view, by its entries. -/
theorem DocumentView.document_sources (v : DocumentView) (d : Nat) (bytes : Bytes) :
    (v.document d bytes).sources = (sourceEntriesFrom 0 v.objects).map (SourceView.node d) ∧
    (v.document d bytes).sourceFieldLocations =
      (sourceEntriesFrom 0 v.objects).map (·.2.fieldLocation) := ⟨rfl, rfl⟩

/-- A parsed document keeps the buffer that it was parsed from. -/
theorem Document.parse_bytes (h : Document.parse d bytes = .ok doc) : doc.bytes = bytes := by
  obtain ⟨v, _, rfl⟩ := Document.parse_eq_ok.1 h
  rfl

/-- The sources of a parsed document stand in index order, with its own identity. -/
theorem Document.parse_ordered (h : Document.parse d bytes = .ok doc) :
    doc.Ordered ∧ ∀ n ∈ doc.sources, n.handle.document = d := by
  obtain ⟨v, _, rfl⟩ := Document.parse_eq_ok.1 h
  refine ⟨List.pairwise_map.2 ((sourceEntriesFrom_index 0 v.objects).2.imp fun h => h), ?_⟩
  intro n hn
  obtain ⟨e, -, rfl⟩ := List.mem_map.1 hn
  rfl

/-- The changes that a batch makes to a document, object by object. -/
theorem DocumentView.wantedChanges_eq (v : DocumentView) (want : SourceNode → Option Str) :
    (v.document d bytes).wantedChanges want = changesFrom d want 0 v.objects := by
  unfold Document.wantedChanges changesFrom
  rw [(v.document_sources d bytes).1, (v.document_sources d bytes).2, List.zip_map',
    List.filterMap_map]
  rfl

/-- A source after a batch, in a document of identity `d`. -/
def SourceNode.replaced (d : Nat) (replacements : List (NodeHandle × Str)) (n : SourceNode) :
    SourceNode :=
  ⟨⟨n.handle.index, d⟩, n.kind, (wanted replacements n).getD n.source⟩

/-- The result of a batch: it parses to the replaced sources, and keeps every byte outside the
slots of the changed ones. -/
structure Document.Rewritten (doc : Document) (replacements : List (NodeHandle × Str))
    (out : Bytes) : Prop where
  parses : ∀ d, ∃ doc', Document.parse d out = .ok doc' ∧
    doc'.sources = doc.sources.map (SourceNode.replaced d replacements)
  length_le : doc.bytes.length ≤ out.length
  same : ∀ i, i < doc.bytes.length →
    (∀ c ∈ doc.wantedChanges (wanted replacements),
      i < c.fieldLocation ∨ c.fieldLocation + 4 ≤ i) → out[i]? = doc.bytes[i]?

/-- A view that shows the wanted texts parses to the replaced sources. The sources of a document are
what its view shows, with the handles of the document. -/
theorem Accepts.parses {v v' : DocumentView} {out : Bytes}
    {replacements : List (NodeHandle × Str)} (h : Accepts out v')
    (hshown : (sourceEntriesFrom 0 v'.objects).map SourceView.shown =
      (sourceEntriesFrom 0 v.objects).map (SourceView.wanted d (wanted replacements))) (d' : Nat) :
    ∃ doc', Document.parse d' out = .ok doc' ∧
      doc'.sources =
        (v.document d bytes).sources.map (SourceNode.replaced d' replacements) := by
  refine ⟨_, Document.parse_eq_ok.2 ⟨v', h, rfl⟩, ?_⟩
  rw [(v'.document_sources d' out).1, (v.document_sources d bytes).1, List.map_map]
  have := congrArg (List.map fun e : Nat × NodeKind × Nat × Str =>
    (⟨⟨e.1, d'⟩, e.2.1, e.2.2.2⟩ : SourceNode)) hshown
  rw [List.map_map, List.map_map] at this
  exact this

/-- A batch on a parsed document is applied when its planned size is within the limit. The text of
every wanted source is then what was wanted, the others are as before, and no byte outside the
patched slots has changed. -/
theorem Document.rewrite_ok (h : Document.parse d bytes = .ok doc)
    {replacements : List (NodeHandle × Str)} (hnodup : (replacements.map (·.1)).Nodup)
    (hfrom : ∀ r ∈ replacements, r.1 ∈ doc.sources.map (·.handle))
    (hsize : doc.wantedChanges (wanted replacements) ≠ [] →
      doc.plannedSize (wanted replacements) ≤ maxRewrittenAdlsSize) (d' : Nat) :
    ∃ out, doc.rewrite d' replacements = .ok out ∧ doc.Rewritten replacements out.value := by
  have ho := (Document.parse_ordered h).1
  obtain ⟨v, hacc, rfl⟩ := Document.parse_eq_ok.1 h
  have hwant := @DocumentView.wantedChanges_eq d bytes v (wanted replacements)
  unfold Document.plannedSize at hsize
  rw [hwant] at hsize
  obtain ⟨b', rest', hfold, hacc', hshown, hle, hframe⟩ :=
    @Accepts.changes d _ v [] v.objects bytes hacc hsize
  have hrewritten : Document.Rewritten (v.document d bytes) replacements b' :=
    ⟨hacc'.parses hshown, hle, by rw [hwant]; exact hframe⟩
  by_cases hnil : (v.document d bytes).wantedChanges (wanted replacements) = []
  · obtain rfl : bytes = b' := by
      rw [hwant] at hnil
      simpa [hnil] using hfold
    exact ⟨_, (Document.rewrite_eq_ok ho hnodup hfrom).2 (.inl ⟨hnil, rfl⟩), hrewritten⟩
  · obtain ⟨doc', hparse, -⟩ := hrewritten.parses d'
    refine ⟨.owned b', (Document.rewrite_eq_ok ho hnodup hfrom).2 (.inr ⟨hnil, ?_, b', doc', ?_,
      hparse, rfl⟩), hrewritten⟩
    · unfold Document.plannedSize; rw [hwant]; exact hsize (by rwa [← hwant])
    · rw [hwant]; exact hfold

/-- What a batch returns is its rewritten buffer. A batch that returns has kept within the size
limit, and then the result is known. -/
theorem Document.rewritten_of_rewrite (h : Document.parse d bytes = .ok doc)
    {replacements : List (NodeHandle × Str)} (hnodup : (replacements.map (·.1)).Nodup)
    (hfrom : ∀ r ∈ replacements, r.1 ∈ doc.sources.map (·.handle)) {d' : Nat} {out : Cow Bytes}
    (hout : doc.rewrite d' replacements = .ok out) : doc.Rewritten replacements out.value := by
  obtain ⟨out', hok, hrewritten⟩ := Document.rewrite_ok h hnodup hfrom (fun hne => by
    rcases (Document.rewrite_eq_ok (Document.parse_ordered h).1 hnodup hfrom).1 hout with
      ⟨hnil, -⟩ | ⟨-, hle, -⟩
    · exact absurd hnil hne
    · exact hle) d'
  rw [hout] at hok
  rw [Except.ok.inj hok]
  exact hrewritten

/-- Rewriting a parsed document is total within the size limit and round-trips: the result parses
to the same nodes, each replaced one with its replacement and each other one with its own text,
and only the slots of sources whose text changes are overwritten. -/
theorem Document.rewrite_roundTrip (h : Document.parse d bytes = .ok doc)
    {replacements : List (NodeHandle × Str)} (hnodup : (replacements.map (·.1)).Nodup)
    (hfrom : ∀ r ∈ replacements, r.1 ∈ doc.sources.map (·.handle))
    (hsize : doc.wantedChanges (wanted replacements) ≠ [] →
      doc.plannedSize (wanted replacements) ≤ maxRewrittenAdlsSize) (d' d'' : Nat) :
    ∃ out doc', doc.rewrite d' replacements = .ok out ∧
      Document.parse d'' out.value = .ok doc' ∧
      doc'.sources.map (fun n => (n.handle.index, n.kind)) =
        doc.sources.map (fun n => (n.handle.index, n.kind)) ∧
      (∀ (i : Nat) (n n' : SourceNode), doc.sources[i]? = some n → doc'.sources[i]? = some n' →
        (∀ text, (n.handle, text) ∈ replacements → n'.source = text) ∧
        (n.handle ∉ replacements.map (·.1) → n'.source = n.source)) ∧
      bytes.length ≤ out.value.length ∧
      ∀ i, i < bytes.length →
        (∀ (k : Nat) (n : SourceNode) (loc : Nat), doc.sources[k]? = some n →
          doc.sourceFieldLocations[k]? = some loc →
          (∃ text, (n.handle, text) ∈ replacements ∧ text ≠ n.source) → i < loc ∨ loc + 4 ≤ i) →
        out.value[i]? = bytes[i]? := by
  obtain ⟨out, hok, hout⟩ := Document.rewrite_ok h hnodup hfrom hsize d'
  obtain ⟨doc', hparse, hsources⟩ := hout.parses d''
  have hbytes := Document.parse_bytes h
  refine ⟨out, doc', hok, hparse, ?_, fun i n n' hn hn' => ?_, hbytes ▸ hout.length_le,
    fun i hi hslots => ?_⟩
  · rw [hsources, List.map_map]; rfl
  · rw [hsources, List.getElem?_map, hn] at hn'
    obtain rfl := Option.some.inj hn'
    constructor
    · intro text hmem
      simp [SourceNode.replaced, wanted, lookup_of_mem hnodup hmem]
    · intro hno
      have : wanted replacements n = none :=
        List.lookup_eq_none_iff.2 fun e he => by
          have : n.handle ≠ e.1 := fun hc => hno (List.mem_map.2 ⟨e, he, hc.symm⟩)
          simpa using this
      simp [SourceNode.replaced, this]
  · rw [← hbytes] at hi ⊢
    refine hout.same i hi fun c hc => ?_
    obtain ⟨⟨n, loc⟩, he, hc⟩ := List.mem_filterMap.1 hc
    obtain ⟨k, hk⟩ := List.getElem?_of_mem he
    obtain ⟨hkn, hkl⟩ := List.getElem?_zip_eq_some.1 hk
    obtain ⟨text, hw, hne, rfl⟩ := Document.changeOf_eq_some.1 hc
    exact hslots k n loc hkn hkl ⟨text, mem_of_lookup hw, hne⟩

end

/-- A buffer with a root object and one DSP node whose source is "a". -/
def sampleBuffer : Bytes :=
  [16, 0, 0, 0, 0x41, 0x44, 0x4C, 0x53] ++
  -- the vtable and the table of the root
  [6, 0, 8, 0, 4, 0, 0, 0] ++ [8, 0, 0, 0, 4, 0, 0, 0] ++
  -- the vector of two patch objects
  [2, 0, 0, 0, 12, 0, 0, 0, 40, 0, 0, 0] ++
  -- the root object, then the DSP node
  [4, 0, 4, 0] ++ [4, 0, 0, 0] ++
  [26, 0, 12, 0, 4, 0] ++ List.replicate 18 0 ++ [8, 0, 0, 0] ++
  [28, 0, 0, 0, 79, 0, 0, 0, 4, 0, 0, 0] ++
  [1, 0, 0, 0, 0x61, 0]

/-- A buffer with a root object, a DSP node and a canvas node. Both nodes have the source "a": they
share its string, and they share their vtable. -/
def sharedBuffer : Bytes :=
  [16, 0, 0, 0, 0x41, 0x44, 0x4C, 0x53] ++
  -- the vtable and the table of the root
  [6, 0, 8, 0, 4, 0, 0, 0] ++ [8, 0, 0, 0, 4, 0, 0, 0] ++
  -- the vector of three patch objects
  [3, 0, 0, 0, 16, 0, 0, 0, 44, 0, 0, 0, 52, 0, 0, 0] ++
  -- the root object, then the vtable of the nodes, and the nodes
  [4, 0, 4, 0] ++ [4, 0, 0, 0] ++
  [26, 0, 12, 0, 4, 0] ++ List.replicate 18 0 ++ [8, 0, 0, 0] ++
  [28, 0, 0, 0, 79, 0, 0, 0, 16, 0, 0, 0] ++ [40, 0, 0, 0, 78, 0, 0, 0, 4, 0, 0, 0] ++
  [1, 0, 0, 0, 0x61, 0]

/-- The document that `sharedBuffer` is parsed to. -/
def sampleDocument : Document :=
  ⟨sharedBuffer, [⟨⟨1, 0⟩, .dsp, ['a']⟩, ⟨⟨2, 0⟩, .canvas, ['a']⟩], [84, 96]⟩

/-- The source of the first node is replaced; the second one keeps the string that both had. The two
nodes share a string and a vtable, so the string may not be changed in place. -/
theorem sampleDocument_roundTrip :
    ∃ out doc', sampleDocument.rewrite 1 [(⟨1, 0⟩, ['b', 'c'])] = .ok out ∧
      Document.parse 2 out.value = .ok doc' ∧
      doc'.sources.map (fun n => (n.handle.index, n.kind)) =
        sampleDocument.sources.map (fun n => (n.handle.index, n.kind)) ∧
      (∀ (i : Nat) (n n' : SourceNode), sampleDocument.sources[i]? = some n →
        doc'.sources[i]? = some n' →
        (∀ text, (n.handle, text) ∈ [((⟨1, 0⟩ : NodeHandle), ['b', 'c'])] → n'.source = text) ∧
        (n.handle ∉ [((⟨1, 0⟩ : NodeHandle), ['b', 'c'])].map (·.1) → n'.source = n.source)) ∧
      sharedBuffer.length ≤ out.value.length ∧
      ∀ i, i < sharedBuffer.length →
        (∀ (k : Nat) (n : SourceNode) (loc : Nat), sampleDocument.sources[k]? = some n →
          sampleDocument.sourceFieldLocations[k]? = some loc →
          (∃ text, (n.handle, text) ∈ [((⟨1, 0⟩ : NodeHandle), ['b', 'c'])] ∧ text ≠ n.source) →
          i < loc ∨ loc + 4 ≤ i) →
        out.value[i]? = sharedBuffer[i]? :=
  Document.rewrite_roundTrip (d := 0) (by decide) (by decide) (by decide) (by decide) 1 2

end Zwirn.Adls
