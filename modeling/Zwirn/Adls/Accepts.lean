import Zwirn.Adls.Parse

/-!
# Accepted documents

`Document.parse_eq_ok`: parsing succeeds exactly when the buffer holds a view (`Accepts`), which
lists the tables, the strings and the source nodes with the places at which they are. The reading
functions are inverted once (`Parser.table_spec`, `Table.field_spec`, `Parser.sourceString_eq_ok`),
and each of them is shown to depend only on the bytes of its own windows (`Parser.table_congr`,
`Table.field_congr`, `Parser.sourceString_congr`), which is why a buffer that is rewritten outside
of these windows is still accepted.
-/

namespace Zwirn.Adls

open Lib

/-! ## Reading words -/

section
variable {p p' : Parser} {loc n a b s : Nat} {st : String}

/-- Two buffers hold the same bytes from `a` to `b`. -/
def Parser.Same (p p' : Parser) (a b : Nat) : Prop :=
  ∀ i, a ≤ i → i < b → p'.bytes[i]? = p.bytes[i]?

/-- Bytes that are the same from `a` to `b` are the same in every window in between. -/
theorem Parser.Same.mono {a' b' : Nat} (h : p.Same p' a b) (ha : a ≤ a') (hb : b' ≤ b) :
    p.Same p' a' b' := fun i h1 h2 => h i (by omega) (by omega)

/-- Bytes are read exactly if they lie in the buffer, and then they are its slice. -/
theorem Parser.array_eq_ok {bs : Bytes} : p.array n loc st = .ok bs ↔
    loc + n < usizeBound ∧ loc + n ≤ p.bytes.length ∧ bs = slice p.bytes loc n := by
  simp only [Parser.array, Except.bind_eq_ok, okOr_eq_ok, checkedAdd_eq_some, require_eq_ok,
    Except.pure_eq_ok]
  constructor
  · rintro ⟨_, ⟨h1, rfl⟩, _, h2, rfl⟩; exact ⟨h1, h2, rfl⟩
  · rintro ⟨h1, h2, rfl⟩; exact ⟨_, ⟨h1, rfl⟩, (), h2, rfl⟩

/-- A 16-bit word is read exactly if its two bytes lie in the buffer. -/
theorem Parser.readU16_eq_ok {v : Nat} : p.readU16 loc st = .ok v ↔
    loc + 2 < usizeBound ∧ loc + 2 ≤ p.bytes.length ∧ v = leWord (slice p.bytes loc 2) := by
  simp only [Parser.readU16, Except.bind_eq_ok, Parser.array_eq_ok, Except.pure_eq_ok]
  constructor
  · rintro ⟨_, ⟨h1, h2, rfl⟩, rfl⟩; exact ⟨h1, h2, rfl⟩
  · rintro ⟨h1, h2, rfl⟩; exact ⟨_, ⟨h1, h2, rfl⟩, rfl⟩

/-- A 32-bit word is read exactly if its four bytes lie in the buffer. -/
theorem Parser.readU32_eq_ok {v : Nat} : p.readU32 loc st = .ok v ↔
    loc + 4 < usizeBound ∧ loc + 4 ≤ p.bytes.length ∧ v = leWord (slice p.bytes loc 4) := by
  simp only [Parser.readU32, Except.bind_eq_ok, Parser.array_eq_ok, Except.pure_eq_ok]
  constructor
  · rintro ⟨_, ⟨h1, h2, rfl⟩, rfl⟩; exact ⟨h1, h2, rfl⟩
  · rintro ⟨h1, h2, rfl⟩; exact ⟨_, ⟨h1, h2, rfl⟩, rfl⟩

/-- A sum is computed exactly if it does not overflow. -/
theorem Parser.checkedAdd_eq_ok {l r e v : Nat} :
    p.checkedAdd l r e st = .ok v ↔ l + r < usizeBound ∧ l + r = v := by
  simp [Parser.checkedAdd]

/-- A range is accepted exactly if it lies in the buffer. -/
theorem Parser.requireRange_eq_ok {u : Unit} : p.requireRange loc n st = .ok u ↔
    loc + n < usizeBound ∧ loc + n ≤ p.bytes.length := by
  simp only [Parser.requireRange, Except.bind_eq_ok, okOr_eq_ok, checkedAdd_eq_some,
    require_eq_ok]
  constructor
  · rintro ⟨_, ⟨h1, rfl⟩, h2⟩; exact ⟨h1, h2⟩
  · rintro ⟨h1, h2⟩; exact ⟨_, ⟨h1, rfl⟩, h2⟩

variable (hlen : p.bytes.length ≤ p'.bytes.length)
include hlen

/-- Bytes are read again from a buffer that holds the same ones there. -/
theorem Parser.array_congr {bs : Bytes} (h : p.array n loc st = .ok bs)
    (hs : p.Same p' loc (loc + n)) : p'.array n loc st = .ok bs := by
  rw [Parser.array_eq_ok] at h ⊢
  exact ⟨h.1, by omega, by rw [h.2.2, slice_congr hs]⟩

/-- A word is read again from a buffer that holds the same two bytes there. -/
theorem Parser.readU16_congr {v : Nat} (h : p.readU16 loc st = .ok v)
    (hs : p.Same p' loc (loc + 2)) : p'.readU16 loc st = .ok v := by
  rw [Parser.readU16_eq_ok] at h ⊢
  exact ⟨h.1, by omega, by rw [h.2.2, slice_congr hs]⟩

/-- A word is read again from a buffer that holds the same four bytes there. -/
theorem Parser.readU32_congr {v : Nat} (h : p.readU32 loc st = .ok v)
    (hs : p.Same p' loc (loc + 4)) : p'.readU32 loc st = .ok v := by
  rw [Parser.readU32_eq_ok] at h ⊢
  exact ⟨h.1, by omega, by rw [h.2.2, slice_congr hs]⟩

/-- A signed word is read again from a buffer that holds the same four bytes there. -/
theorem Parser.readI32_congr {v : Int} (h : p.readI32 loc st = .ok v)
    (hs : p.Same p' loc (loc + 4)) : p'.readI32 loc st = .ok v := by
  simp only [Parser.readI32, Except.bind_eq_ok] at h ⊢
  obtain ⟨bs, h, hv⟩ := h
  exact ⟨bs, Parser.array_congr hlen h hs, hv⟩

/-- A range in a buffer is one in a longer buffer. -/
theorem Parser.requireRange_congr {u : Unit} (h : p.requireRange loc n st = .ok u) :
    p'.requireRange loc n st = .ok u := by
  rw [Parser.requireRange_eq_ok] at h ⊢
  exact ⟨h.1, h.2.trans hlen⟩

/-- An offset leads to the same place in a buffer that holds the same offset and is no shorter. -/
theorem Parser.followUoffset_congr {al v : Nat} (h : p.followUoffset loc al st = .ok v)
    (hs : p.Same p' loc (loc + 4)) : p'.followUoffset loc al st = .ok v := by
  simp only [Parser.followUoffset, Except.bind_eq_ok, require_eq_ok, Parser.checkedAdd_eq_ok,
    Except.pure_eq_ok] at h ⊢
  obtain ⟨_, h1, w, hw, _, h2, t, ht, _, h3, rfl⟩ := h
  exact ⟨(), h1, w, Parser.readU32_congr hlen hw hs, (), h2, t, ht, (), ⟨h3.1, by omega⟩, rfl⟩

end

/-- What makes an unsigned offset lead to `v`. -/
theorem Parser.followUoffset_of {p : Parser} {loc al v : Nat} {st : String} (h1 : loc % 4 = 0)
    (h2 : loc + 4 ≤ p.bytes.length) (h3 : loc < v) (h4 : v % al = 0) (h5 : v < p.bytes.length)
    (h6 : leWord (slice p.bytes loc 4) = v - loc) (h7 : v < usizeBound)
    (h8 : loc + 4 < usizeBound) : p.followUoffset loc al st = .ok v := by
  simp only [Parser.followUoffset, Except.bind_eq_ok, require_eq_ok, Parser.checkedAdd_eq_ok,
    Parser.readU32_eq_ok, Except.pure_eq_ok]
  exact ⟨(), h1, v - loc, ⟨h8, h2, h6.symm⟩, (), by omega, v, ⟨by omega, by omega⟩, (), ⟨h4, h5⟩, rfl⟩

/-! ## Tables -/

/-- The entries of a vtable start at the even offsets behind its header. -/
theorem mem_entryOffsets {n e : Nat} : e ∈ entryOffsets n ↔ 4 ≤ e ∧ e < n ∧ e % 2 = 0 := by
  simp only [entryOffsets, List.mem_map, List.mem_range, vtableHeaderSize]
  constructor
  · rintro ⟨k, hk, rfl⟩; omega
  · rintro ⟨h1, h2, h3⟩; exact ⟨(e - 4) / 2, by omega, by omega⟩

/-- The shape of a table that was read. Every entry of the vtable that is not 0 leads into the
object, behind its first word. -/
structure Parser.HoldsTable (p : Parser) (t : Table) : Prop where
  aligned : t.location % 4 = 0
  length_le : 4 ≤ t.vtableLength
  length_even : t.vtableLength % 2 = 0
  size_le : 4 ≤ t.objectLength
  vtable_in : t.vtableLocation + t.vtableLength ≤ p.bytes.length
  table_in : t.location + t.objectLength ≤ p.bytes.length
  vtable_lt : t.vtableLocation + t.vtableLength < usizeBound
  table_lt : t.location + t.objectLength < usizeBound
  entries : ∀ e ∈ entryOffsets t.vtableLength,
    let o := leWord (slice p.bytes (t.vtableLocation + e) 2)
    o ≠ 0 → 4 ≤ o ∧ o < t.objectLength

section
variable {p p' : Parser} {loc : Nat} {st : String} {t : Table}

/-- An entry is accepted exactly if its word lies in the buffer and is 0, or leads behind the first
word of the table and into the table. -/
theorem Parser.checkEntry_eq_ok {vt ol e : Nat} {u : Unit} : p.checkEntry vt ol st e = .ok u ↔
    vt + e + 2 < usizeBound ∧ vt + e + 2 ≤ p.bytes.length ∧
      (leWord (slice p.bytes (vt + e) 2) ≠ 0 → 4 ≤ leWord (slice p.bytes (vt + e) 2) ∧
        leWord (slice p.bytes (vt + e) 2) < ol) := by
  simp only [Parser.checkEntry, Except.bind_eq_ok, Parser.checkedAdd_eq_ok, Parser.readU16_eq_ok,
    require_eq_ok]
  constructor
  · rintro ⟨_, ⟨h1, rfl⟩, _, ⟨h2, h3, rfl⟩, h4⟩
    exact ⟨h2, h3, fun h0 => by omega⟩
  · rintro ⟨h1, h2, h3⟩
    exact ⟨_, ⟨by omega, rfl⟩, _, ⟨h1, h2, rfl⟩, fun h => by have := h3 h.1; omega⟩

/-- A table that was read stands where it was asked for, and has the shape of one. -/
theorem Parser.table_spec (h : p.table loc st = .ok t) : t.location = loc ∧ p.HoldsTable t := by
  simp only [Parser.table, Except.bind_eq_ok, require_eq_ok, Parser.requireRange_eq_ok,
    forM_eq_ok, Except.pure_eq_ok] at h
  obtain ⟨_, h1, _, _, _, _, vt, _, _, _, vl, _, _, _, ol, _, _, ⟨h2, h3⟩, _, h4, _, ⟨h5, h6⟩, _,
    ⟨h7, h8⟩, _, h9, rfl⟩ := h
  refine ⟨rfl, h1, h2, h3, h4, h6, h8, h5, h7, fun e he => ?_⟩
  exact (Parser.checkEntry_eq_ok.1 (h9 e he)).2.2

/-- A table is read from its first word and its vtable alone. So a table is read alike from another
buffer that agrees with this one there, whatever else differs, as long as it is not shorter. -/
theorem Parser.table_congr (hlen : p.bytes.length ≤ p'.bytes.length) (h : p.table loc st = .ok t)
    (hw : p.Same p' loc (loc + 4))
    (hv : p.Same p' t.vtableLocation (t.vtableLocation + t.vtableLength)) :
    p'.table loc st = .ok t := by
  have ⟨_, ht⟩ := Parser.table_spec h
  have h4 := ht.length_le
  simp only [Parser.table, Except.bind_eq_ok, require_eq_ok, forM_eq_ok, Except.pure_eq_ok,
    Parser.checkedAdd_eq_ok] at h ⊢
  obtain ⟨_, h1, w, hrw, _, h2, vt, h3, _, h4', vl, hvl, _, ⟨h5, rfl⟩, ol, hol, _, h6, _, h7, _,
    h8, _, h9, _, h10, rfl⟩ := h
  refine ⟨(), h1, w, Parser.readI32_congr hlen hrw hw, (), h2, vt, h3, (), h4', vl,
    Parser.readU16_congr hlen hvl (hv.mono (Nat.le_refl _) (by dsimp only at *; omega)), _,
    ⟨h5, rfl⟩, ol,
    Parser.readU16_congr hlen hol (hv.mono (by dsimp only; omega) (by dsimp only at *; omega)), (),
    h6, (), h7, (), Parser.requireRange_congr hlen h8, (), Parser.requireRange_congr hlen h9, (),
    fun e he => ?_, rfl⟩
  have hme := mem_entryOffsets.1 he
  have hc := h10 e he
  rw [Parser.checkEntry_eq_ok] at hc ⊢
  rw [slice_congr (fun i hi1 hi2 => hv i (by dsimp only at *; omega) (by dsimp only at *; omega))]
  exact ⟨hc.1, by omega, hc.2.2⟩

end

/-! ## Fields -/

/-- Where the field `index` of a table was found, and that no other entry starts inside it. -/
structure Parser.HoldsField (p : Parser) (t : Table) (index width alignment loc : Nat) : Prop where
  entry_le : 4 + 2 * index + 2 ≤ t.vtableLength
  loc_eq : loc = t.location + leWord (slice p.bytes (t.vtableLocation + (4 + 2 * index)) 2)
  offset_ne : leWord (slice p.bytes (t.vtableLocation + (4 + 2 * index)) 2) ≠ 0
  end_le : loc + width ≤ t.location + t.objectLength
  aligned : loc % alignment = 0
  alone : ∀ e ∈ entryOffsets t.vtableLength, e ≠ 4 + 2 * index →
    let o := leWord (slice p.bytes (t.vtableLocation + e) 2)
    ¬ (loc ≤ t.location + o ∧ t.location + o < loc + width)

section
variable {p p' : Parser} {st : String} {t : Table} {i w al : Nat}

/-- Another entry is accepted exactly if its word lies in the buffer and does not lead into the
accessed field. The entry of the field itself is passed over. -/
theorem Table.checkOther_eq_ok {e fo fe e' : Nat} {u : Unit} :
    t.checkOther p e fo fe st e' = .ok u ↔
      (e' ≠ e → t.vtableLocation + e' + 2 < usizeBound ∧
        t.vtableLocation + e' + 2 ≤ p.bytes.length ∧
        ¬ (fo ≤ leWord (slice p.bytes (t.vtableLocation + e') 2) ∧
          leWord (slice p.bytes (t.vtableLocation + e') 2) < fe)) := by
  unfold Table.checkOther
  split
  · next he => simp [he]
  · next he =>
    simp only [Except.bind_eq_ok, Parser.checkedAdd_eq_ok, Parser.readU16_eq_ok, require_eq_ok]
    constructor
    · rintro ⟨_, ⟨h1, rfl⟩, _, ⟨h2, h3, rfl⟩, h4⟩ _
      exact ⟨h2, h3, h4⟩
    · intro h
      obtain ⟨h1, h2, h3⟩ := h he
      exact ⟨_, ⟨by omega, rfl⟩, _, ⟨h1, h2, rfl⟩, h3⟩

/-- A field that was found lies where its entry says, and apart from the others. The steps of the
lookup are taken apart in their order, and the check of the other entries gives that no other field
starts inside. -/
theorem Table.field_spec {l : Nat} (h : t.field p i w al st = .ok (some l)) :
    p.HoldsField t i w al l := by
  simp only [Table.field, Except.bind_eq_ok, okOr_eq_ok, Option.bind_eq_some_iff,
    checkedMul_eq_some, checkedAdd_eq_some, vtableHeaderSize] at h
  obtain ⟨e, ⟨_, ⟨_, rfl⟩, _, rfl⟩, _, ⟨_, rfl⟩, h⟩ := h
  split at h
  · exact absurd (Except.pure_eq_ok.1 h) (by simp)
  next hle =>
  simp only [Except.bind_eq_ok, Parser.checkedAdd_eq_ok, Parser.readU16_eq_ok] at h
  obtain ⟨_, ⟨_, rfl⟩, o, ⟨_, _, rfl⟩, h⟩ := h
  rw [Nat.mul_comm i 2] at *
  split at h
  · exact absurd (Except.pure_eq_ok.1 h) (by simp)
  next hne =>
  simp only [Except.bind_eq_ok, okOr_eq_ok, checkedAdd_eq_some, require_eq_ok, forM_eq_ok,
    Parser.checkedAdd_eq_ok, Parser.requireRange_eq_ok, Except.pure_eq_ok,
    Option.some.injEq] at h
  obtain ⟨_, ⟨_, rfl⟩, _, hend, _, hall, _, ⟨_, rfl⟩, _, hal, _, _, rfl⟩ := h
  refine ⟨by omega, rfl, hne, by omega, hal, fun e he hee => ?_⟩
  have := (Table.checkOther_eq_ok.1 (hall e he) hee).2.2
  omega

/-- A field is looked up in the vtable alone. Where the buffers agree on the vtable, the lookup
takes the same branch in each of its steps. -/
theorem Table.field_congr (hlen : p.bytes.length ≤ p'.bytes.length) (ht : p.HoldsTable t)
    {r : Option Nat} (h : t.field p i w al st = .ok r)
    (hv : p.Same p' t.vtableLocation (t.vtableLocation + t.vtableLength)) :
    t.field p' i w al st = .ok r := by
  simp only [Table.field, Except.bind_eq_ok, okOr_eq_ok] at h ⊢
  obtain ⟨e, he, stop, hstop, h⟩ := h
  refine ⟨e, he, stop, hstop, ?_⟩
  have h2 := checkedAdd_eq_some.1 hstop
  split at h
  · next hc => rw [if_pos hc]; exact h
  next hc =>
  rw [if_neg hc]
  simp only [Except.bind_eq_ok, Parser.checkedAdd_eq_ok] at h ⊢
  obtain ⟨_, ⟨hlt, rfl⟩, o, ho, h⟩ := h
  refine ⟨_, ⟨hlt, rfl⟩, o, Parser.readU16_congr hlen ho (hv.mono (by omega) (by omega)), ?_⟩
  split at h
  · next hz => rw [if_pos hz]; exact h
  next hz =>
  rw [if_neg hz]
  simp only [Except.bind_eq_ok, okOr_eq_ok, require_eq_ok, forM_eq_ok,
    Parser.checkedAdd_eq_ok] at h ⊢
  obtain ⟨fe, hfe, _, hle, _, hall, l, hl, _, hal, _, hrange, h⟩ := h
  refine ⟨fe, hfe, (), hle, (), fun e' he' => ?_, l, hl, (), hal, (),
    Parser.requireRange_congr hlen hrange, h⟩
  have hme := mem_entryOffsets.1 he'
  have heven := ht.length_even
  have hc' := hall e' he'
  rw [Table.checkOther_eq_ok] at hc' ⊢
  intro hne
  rw [slice_congr (fun k h1 h2 => hv k (by omega) (by omega))]
  exact ⟨(hc' hne).1, (hc' hne).2.1.trans hlen, (hc' hne).2.2⟩

end

/-! ## Strings -/

section
variable {p p' : Parser} {loc : Nat} {s : StringPlace}

/-- A string is read exactly if its slot leads to its length word, and it ends in the buffer with a
terminator that is 0. -/
theorem Parser.sourceString_eq_ok : p.sourceString loc = .ok s ↔
    p.followUoffset loc u32Size "source string" = .ok s.location ∧
      p.readU32 s.location "source string" = .ok s.length ∧ s.stop < usizeBound ∧
      p.bytes[s.bytesLocation + s.length]? = some 0 := by
  obtain ⟨sl, n⟩ := s
  simp only [Parser.sourceString, Except.bind_eq_ok, okOr_eq_ok, require_eq_ok,
    Parser.checkedAdd_eq_ok, Parser.requireRange_eq_ok, checkedAdd_eq_some, Except.pure_eq_ok,
    StringPlace.mk.injEq, StringPlace.stop, StringPlace.bytesLocation]
  constructor
  · rintro ⟨_, h1, _, h2, _, ⟨_, rfl⟩, _, ⟨_, rfl⟩, _, _, _, h3, _, rfl, _, ⟨h4, rfl⟩, rfl, rfl⟩
    exact ⟨h1, h2, h4, h3⟩
  · rintro ⟨h1, h2, h3, h4⟩
    have hl := (List.getElem?_eq_some_iff.1 h4).1
    exact ⟨_, h1, _, h2, _, ⟨by omega, rfl⟩, _, ⟨by omega, rfl⟩, (), ⟨by omega, by omega⟩, _, h4,
      (), rfl, _, ⟨h3, rfl⟩, rfl, rfl⟩

/-- A string is read from its slot and its own bytes alone. -/
theorem Parser.sourceString_congr (hlen : p.bytes.length ≤ p'.bytes.length)
    (h : p.sourceString loc = .ok s) (hslot : p.Same p' loc (loc + 4))
    (hs : p.Same p' s.location s.stop) : p'.sourceString loc = .ok s := by
  rw [Parser.sourceString_eq_ok] at h ⊢
  obtain ⟨h1, h2, h3, h4⟩ := h
  have hu : u32Size = 4 := rfl
  have hstop : s.stop = s.bytesLocation + s.length + 1 := rfl
  have hb : s.bytesLocation = s.location + 4 := rfl
  refine ⟨Parser.followUoffset_congr hlen h1 hslot,
    Parser.readU32_congr hlen h2 (hs.mono (Nat.le_refl _) (by omega)), h3, ?_⟩
  rw [hs _ (by omega) (by omega), h4]

end

/-! ## Views -/

/-- A source field of a patch object: its kind, its slot, and the string the slot refers to. -/
structure SourceView where
  kind : NodeKind
  fieldLocation : Nat
  place : StringPlace
  source : Str

/-- A patch object as the walk reads it. -/
structure ObjectView where
  table : Table
  typeId : Nat
  source : Option SourceView

/-- Everything the walk over a buffer reads. -/
structure DocumentView where
  root : Table
  poolField : Nat
  poolLocation : Nat
  objects : List ObjectView

/-- The region of a table. -/
def Table.placed (t : Table) : Placed := ⟨t.location, t.location + t.objectLength, .table⟩

/-- The region of the vtable of a table. -/
def Table.placedVtable (t : Table) : Placed :=
  ⟨t.vtableLocation, t.vtableLocation + t.vtableLength, .vtable⟩

/-- The region of a string. -/
def StringPlace.placed (s : StringPlace) : Placed := ⟨s.location, s.stop, .string⟩

/-- The regions of a table and of its vtable, in the order in which they are recorded. -/
def Table.regions (t : Table) (structure_ : String) : List (Placed × String) :=
  [(t.placed, structure_), (t.placedVtable, structure_)]

namespace ObjectView

/-- The regions of an object in the order the walk records them. -/
def regions (o : ObjectView) : List (Placed × String) :=
  o.table.regions "patch object" ++
    o.source.toList.map fun s => (s.place.placed, "source string")

end ObjectView

/-- The source fields among the objects, with the index of their object. -/
def sourceEntries (os : List ObjectView) : List (Nat × SourceView) :=
  os.zipIdx.flatMap fun o => o.1.source.toList.map fun s => (o.2, s)

/-- The source node that a source field amounts to. -/
def SourceView.node (documentId : Nat) (e : Nat × SourceView) : SourceNode :=
  ⟨⟨e.1, documentId⟩, e.2.kind, e.2.source⟩

namespace DocumentView

/-- The region of the header. -/
def headerPlaced : Placed := ⟨0, headerSize, .header⟩

/-- The region of the vector of patch objects. -/
def poolPlaced (v : DocumentView) : Placed :=
  ⟨v.poolLocation, v.poolLocation + u32Size + v.objects.length * u32Size, .vector⟩

/-- All regions in the order the walk records them. -/
def regions (v : DocumentView) : List (Placed × String) :=
  (headerPlaced, "ADLS header") :: v.root.regions "root table" ++
    (v.poolPlaced, "patch-object vector") :: v.objects.flatMap ObjectView.regions

/-- The document a view amounts to. -/
def document (v : DocumentView) (documentId : Nat) (bytes : Bytes) : Document :=
  ⟨bytes, (sourceEntries v.objects).map (SourceView.node documentId),
    (sourceEntries v.objects).map (·.2.fieldLocation)⟩

end DocumentView

/-- The source of an object as the walk finds it: none without a source kind or without `f10`. -/
def Parser.ReadsSource (p : Parser) (t : Table) (typeId : Nat) : Option SourceView → Prop
  | none => ∀ kind, NodeKind.fromTypeId typeId = some kind →
      t.field p 10 u32Size u32Size "patch object f10" = .ok none
  | some s => NodeKind.fromTypeId typeId = some s.kind ∧
      t.field p 10 u32Size u32Size "patch object f10" = .ok (some s.fieldLocation) ∧
      p.sourceString s.fieldLocation = .ok s.place ∧
      decode (slice p.bytes s.place.bytesLocation s.place.length) = some s.source

/-- The object `o` is the element `index` of the vector at `elements`. The offset leads to its
table, and its type decides whether there is a source. -/
structure Parser.ReadsObject (p : Parser) (elements index : Nat) (o : ObjectView) : Prop where
  index_lt : index < u32Bound
  element_lt : elements + index * u32Size < usizeBound
  location : p.followUoffset (elements + index * u32Size) u32Size "patch object" =
    .ok o.table.location
  table : p.table o.table.location "patch object" = .ok o.table
  typeId : p.typeId o.table = .ok o.typeId
  root : index = 0 → o.typeId = 0
  source : p.ReadsSource o.table o.typeId o.source

/-- The buffer holds the view `v`. This is the parser without the order of its steps: the tables are
read where the offsets lead, every object is read, no object table comes twice, and the regions of
the view are pairwise compatible. -/
structure Accepts (bytes : Bytes) (v : DocumentView) : Prop where
  header : headerSize ≤ bytes.length
  identifier : slice bytes 4 4 = fileIdentifier
  rootLocation : Parser.followUoffset ⟨bytes⟩ 0 u32Size "root table" = .ok v.root.location
  root : Parser.table ⟨bytes⟩ v.root.location "root table" = .ok v.root
  poolField : v.root.field ⟨bytes⟩ 0 u32Size u32Size "root f0" = .ok (some v.poolField)
  poolLocation : Parser.followUoffset ⟨bytes⟩ v.poolField u32Size "patch-object vector" =
    .ok v.poolLocation
  count : Parser.readU32 ⟨bytes⟩ v.poolLocation "patch-object vector" = .ok v.objects.length
  nonempty : v.objects ≠ []
  elements : Parser.requireRange ⟨bytes⟩ (v.poolLocation + u32Size) (v.objects.length * u32Size)
    "patch-object vector" = .ok ()
  objects : ∀ i o, v.objects[i]? = some o →
    Parser.ReadsObject ⟨bytes⟩ (v.poolLocation + u32Size) i o
  distinct : (v.objects.map (·.table.location)).Nodup
  regions : ∃ layout, Layout.new.addAll v.regions = .ok layout

/-! ## Parsing accepts -/

/-- Two sequences of regions are recorded one behind the other. -/
theorem Layout.addAll_append {layout layout' : Layout} {rs rs' : List (Placed × String)} :
    layout.addAll (rs ++ rs') = .ok layout' ↔
      ∃ l, layout.addAll rs = .ok l ∧ l.addAll rs' = .ok layout' :=
  foldlM_append_eq_ok

/-- A sequence of regions is recorded from the first one on. -/
theorem Layout.addAll_cons {layout layout' : Layout} {r : Placed × String}
    {rs : List (Placed × String)} : layout.addAll (r :: rs) = .ok layout' ↔
      ∃ l, layout.add r.1.start r.1.stop r.1.kind r.2 = .ok l ∧ l.addAll rs = .ok layout' := by
  simp [Layout.addAll]

/-- Recording nothing changes nothing. -/
@[simp] theorem Layout.addAll_nil {layout layout' : Layout} :
    layout.addAll [] = .ok layout' ↔ layout = layout' := by
  simp [Layout.addAll]

/-- A table is recorded as its two regions are. -/
theorem Layout.addTable_eq_ok {p : Parser} {t : Table} (ht : p.HoldsTable t) {st : String}
    {layout layout' : Layout} :
    layout.addTable t st = .ok layout' ↔ layout.addAll (t.regions st) = .ok layout' := by
  simp only [Layout.addTable, Table.regions, Layout.addAll_cons, Layout.addAll_nil,
    Except.bind_eq_ok, okOr_eq_ok, checkedAdd_eq_some, Table.placed, Table.placedVtable]
  constructor
  · rintro ⟨_, ⟨_, rfl⟩, l, h1, _, ⟨_, rfl⟩, h2⟩
    exact ⟨l, h1, _, h2, rfl⟩
  · rintro ⟨l, h1, _, h2, rfl⟩
    exact ⟨_, ⟨ht.table_lt, rfl⟩, l, h1, _, ⟨ht.vtable_lt, rfl⟩, h2⟩

/-- The state after the objects `os` have been read. -/
def ParseState.after (documentId : Nat) (layout : Layout) (os : List ObjectView) : ParseState where
  layout := layout
  objectIndexes := os.zipIdx.foldl (fun m o => m.insert o.1.table.location o.2) .empty
  sources := (sourceEntries os).map (SourceView.node documentId)
  sourceFieldLocations := (sourceEntries os).map (·.2.fieldLocation)

/-- One more object adds its source, if it has one, behind the others. -/
theorem sourceEntries_concat (os : List ObjectView) (o : ObjectView) :
    sourceEntries (os ++ [o]) =
      sourceEntries os ++ o.source.toList.map fun s => (os.length, s) := by
  simp [sourceEntries, List.zipIdx_append]

/-- An object table is known to the loop exactly when one of the objects read has it. The induction
adds one object behind the others. -/
theorem ParseState.after_find?_eq_none {d : Nat} {layout : Layout} {os : List ObjectView}
    {l : Nat} : (ParseState.after d layout os).objectIndexes.find? l = none ↔
      l ∉ os.map (·.table.location) := by
  induction os using List.reverseRecOn with
  | nil => simp [ParseState.after]
  | append_singleton os o ih =>
    simp only [ParseState.after] at ih ⊢
    rw [List.zipIdx_append, List.foldl_append]
    simp only [List.zipIdx_singleton, List.foldl_cons, List.foldl_nil, OrdMap.find?_insert,
      List.map_append, List.mem_append, List.map_cons, List.map_nil, List.mem_singleton]
    split
    · next h => simp [h]
    · next h => rw [ih]; simp [h]

/-- One round of the loop reads one object, unless its table was read before. The state behind
the round is that of the objects so far with one more, so the rounds can be put together by
induction. -/
theorem Parser.parseObject_eq_ok {p : Parser} {d el : Nat} {layout : Layout}
    {os : List ObjectView} {st' : ParseState} :
    p.parseObject d el (ParseState.after d layout os) os.length = .ok st' ↔
      ∃ o layout', p.ReadsObject el os.length o ∧ o.table.location ∉ os.map (·.table.location) ∧
        layout.addAll o.regions = .ok layout' ∧ st' = ParseState.after d layout' (os ++ [o]) := by
  have hlay : (ParseState.after d layout os).layout = layout := rfl
  have hsrc : ∀ o layout', ParseState.after d layout' (os ++ [o]) =
      { layout := layout'
        objectIndexes :=
          (ParseState.after d layout os).objectIndexes.insert o.table.location os.length
        sources := (ParseState.after d layout os).sources ++
          o.source.toList.map fun s => SourceView.node d (os.length, s)
        sourceFieldLocations := (ParseState.after d layout os).sourceFieldLocations ++
          o.source.toList.map (·.fieldLocation) } := by
    intro o layout'
    simp [ParseState.after, sourceEntries_concat, List.zipIdx_append, Function.comp_def]
  constructor
  · intro h
    simp only [Parser.parseObject, Except.bind_eq_ok, okOr_eq_ok, checkedMul_eq_some,
      Parser.checkedAdd_eq_ok, u32TryFrom_eq_some] at h
    obtain ⟨_, ⟨_, rfl⟩, _, ⟨helt, rfl⟩, l, hl, _, ⟨hidx, rfl⟩, h⟩ := h
    split at h
    · exact absurd h (by simp)
    next hnone =>
    simp only [Except.bind_eq_ok, require_eq_ok] at h
    obtain ⟨t, ht, layout₁, hadd, typeId, htype, _, hroot, h⟩ := h
    obtain ⟨rfl, hholds⟩ := Parser.table_spec ht
    rw [Layout.addTable_eq_ok hholds, hlay] at hadd
    have hnew := ParseState.after_find?_eq_none.1 hnone
    have hreads : ∀ source, p.ReadsSource t typeId source →
        p.ReadsObject el os.length ⟨t, typeId, source⟩ := fun source hs =>
      ⟨hidx, helt, hl, ht, htype, fun h0 => not_not.1 fun h1 => hroot ⟨h0, h1⟩, hs⟩
    split at h
    · next hkind =>
      refine ⟨⟨t, typeId, none⟩, layout₁, hreads _ ?_, hnew, by simpa [ObjectView.regions], ?_⟩
      · intro kind hk; rw [hkind] at hk; cases hk
      · rw [← Except.pure_eq_ok.1 h, hsrc]; simp
    next kind hkind =>
    simp only [Except.bind_eq_ok] at h
    obtain ⟨field, hfield, h⟩ := h
    split at h
    · refine ⟨⟨t, typeId, none⟩, layout₁, hreads _ fun _ _ => hfield, hnew,
        by simpa [ObjectView.regions], ?_⟩
      rw [← Except.pure_eq_ok.1 h, hsrc]; simp
    next slot =>
    simp only [Except.bind_eq_ok, okOr_eq_ok] at h
    obtain ⟨place, hplace, layout₂, hadd₂, source, hdec, h⟩ := h
    refine ⟨⟨t, typeId, some ⟨kind, slot, place, source⟩⟩, layout₂,
      hreads _ ⟨hkind, hfield, hplace, hdec⟩, hnew, ?_, ?_⟩
    · simp only [ObjectView.regions, Layout.addAll_append]
      exact ⟨layout₁, hadd, by simpa [Layout.addAll_cons, StringPlace.placed] using hadd₂⟩
    · rw [← Except.pure_eq_ok.1 h, hsrc]; simp [SourceView.node]
  · rintro ⟨⟨t, typeId, source⟩, layout', ho, hnew, hadd, rfl⟩
    obtain ⟨_, hholds⟩ := Parser.table_spec ho.table
    have helt := ho.element_lt
    simp only [Parser.parseObject, Except.bind_eq_ok, okOr_eq_ok, checkedMul_eq_some,
      Parser.checkedAdd_eq_ok, u32TryFrom_eq_some]
    refine ⟨_, ⟨by omega, rfl⟩, _, ⟨helt, rfl⟩, _, ho.location, _, ⟨ho.index_lt, rfl⟩, ?_⟩
    rw [ParseState.after_find?_eq_none.2 hnew]
    simp only [ObjectView.regions, Layout.addAll_append] at hadd
    obtain ⟨layout₁, hadd₁, hadd₂⟩ := hadd
    simp only [Except.bind_eq_ok, require_eq_ok]
    refine ⟨t, ho.table, layout₁, ?_, typeId, ho.typeId, (), fun hc => hc.2 (ho.root hc.1), ?_⟩
    · rw [Layout.addTable_eq_ok hholds]; exact hadd₁
    have hs := ho.source
    rw [hsrc]
    cases source with
    | none =>
      obtain rfl : layout₁ = layout' := by simpa using hadd₂
      split
      · simp
      next kind hkind =>
      simp only [Except.bind_eq_ok]
      exact ⟨none, hs kind hkind, by simp⟩
    | some s =>
      obtain ⟨hkind, hfield, hplace, hdec⟩ := hs
      simp only [hkind, Except.bind_eq_ok]
      refine ⟨_, hfield, ?_⟩
      simp only [Except.bind_eq_ok, okOr_eq_ok]
      refine ⟨_, hplace, layout', ?_, _, hdec, by simp [SourceView.node]⟩
      simpa [Layout.addAll_cons, StringPlace.placed] using hadd₂

/-- The loop over the first `n` elements reads `n` objects with different tables. The induction is
on the number of elements, with one round at the end. -/
theorem Parser.foldlM_parseObject_eq_ok {p : Parser} {d el n : Nat} {layout : Layout}
    {st' : ParseState} :
    (List.range n).foldlM (p.parseObject d el) ⟨layout, .empty, [], []⟩ = .ok st' ↔
      ∃ os layout', os.length = n ∧ (∀ i o, os[i]? = some o → p.ReadsObject el i o) ∧
        (os.map (·.table.location)).Nodup ∧
        layout.addAll (os.flatMap ObjectView.regions) = .ok layout' ∧
        st' = ParseState.after d layout' os := by
  induction n generalizing st' with
  | zero =>
    simp only [List.range_zero, List.foldlM_nil, Except.pure_eq_ok]
    constructor
    · rintro rfl
      exact ⟨[], layout, rfl, by simp, by simp, by simp, rfl⟩
    · rintro ⟨os, layout', hlen, -, -, hadd, rfl⟩
      obtain rfl := List.length_eq_zero_iff.1 hlen
      obtain rfl : layout = layout' := by simpa using hadd
      rfl
  | succ n ih =>
    rw [List.range_succ, foldlM_append_eq_ok]
    simp only [ih, List.foldlM_cons, List.foldlM_nil, bind_pure]
    constructor
    · rintro ⟨_, ⟨os, layout₁, rfl, hreads, hnodup, hadd, rfl⟩, hstep⟩
      obtain ⟨o, layout', ho, hnew, hadd', rfl⟩ := Parser.parseObject_eq_ok.1 hstep
      refine ⟨os ++ [o], layout', by simp, fun i o' hi => ?_, ?_, ?_, rfl⟩
      · rcases Nat.lt_or_ge i os.length with hlt | hge
        · exact hreads i o' (by rwa [List.getElem?_append_left hlt] at hi)
        · have hlt := (List.getElem?_eq_some_iff.1 hi).1
          obtain rfl : i = os.length := by simp at hlt; omega
          obtain rfl : o = o' := by simpa using hi
          exact ho
      · rw [List.map_append, List.nodup_append]
        refine ⟨hnodup, by simp, fun a ha b hb hab => hnew ?_⟩
        obtain rfl : b = o.table.location := by simpa using hb
        exact hab ▸ ha
      · rw [List.flatMap_append, Layout.addAll_append]
        exact ⟨layout₁, hadd, by simpa using hadd'⟩
    · rintro ⟨os', layout', hlen, hreads, hnodup, hadd, rfl⟩
      obtain ⟨os, o, rfl⟩ : ∃ os o, os' = os ++ [o] := by
        refine ⟨os'.dropLast, os'.getLast (List.ne_nil_of_length_eq_add_one hlen), ?_⟩
        rw [List.dropLast_append_getLast]
      obtain rfl : os.length = n := by simpa using hlen
      rw [List.flatMap_append, Layout.addAll_append] at hadd
      obtain ⟨layout₁, hadd₁, hadd₂⟩ := hadd
      rw [List.map_append, List.nodup_append] at hnodup
      refine ⟨_, ⟨os, layout₁, rfl, fun i o' hi => hreads i o' ?_, hnodup.1, hadd₁, rfl⟩, ?_⟩
      · rw [List.getElem?_append_left (List.getElem?_eq_some_iff.1 hi).1]; exact hi
      · refine Parser.parseObject_eq_ok.2 ⟨o, layout', hreads _ o (by simp), fun hc => ?_,
          by simpa using hadd₂, rfl⟩
        exact hnodup.2.2 _ hc _ (by simp) rfl

/-- Parsing succeeds exactly when the buffer holds a view, and returns the document of that
view. -/
theorem Document.parse_eq_ok {d : Nat} {bytes : Bytes} {doc : Document} :
    Document.parse d bytes = .ok doc ↔ ∃ v, Accepts bytes v ∧ doc = v.document d bytes := by
  simp only [Document.parse, Except.bind_eq_ok, require_eq_ok, okOr_eq_ok, Except.pure_eq_ok,
    Parser.checkedAdd_eq_ok, checkedAdd_eq_some, checkedMul_eq_some,
    Parser.foldlM_parseObject_eq_ok]
  constructor
  · rintro ⟨_, hheader, _, hident, layout₁, hadd₁, rl, hrl, root, hroot, layout₂, hadd₂, _, hpf, pf,
      rfl, pl, hpl, n, hn, _, hn0, _, ⟨_, rfl⟩, _, ⟨_, rfl⟩, _, hrange, _, ⟨_, rfl⟩, layout₃,
      hadd₃, _, ⟨os, layout₄, rfl, hreads, hnodup, hadd₄, rfl⟩, rfl⟩
    obtain ⟨rfl, hholds⟩ := Parser.table_spec hroot
    rw [Layout.addTable_eq_ok hholds] at hadd₂
    refine ⟨⟨root, pf, pl, os⟩, ⟨hheader, hident, hrl, hroot, hpf, hpl, hn, ?_, hrange, hreads,
      hnodup, layout₄, ?_⟩, rfl⟩
    · rintro rfl; exact hn0 rfl
    · simp only [DocumentView.regions, Layout.addAll_append, Layout.addAll_cons]
      exact ⟨layout₂, ⟨layout₁, hadd₁, hadd₂⟩, layout₃, hadd₃, hadd₄⟩
  · rintro ⟨⟨root, pf, pl, os⟩, h, rfl⟩
    obtain ⟨_, hholds⟩ := Parser.table_spec h.root
    have hrange := Parser.requireRange_eq_ok.1 h.elements
    obtain ⟨layout₄, hadd⟩ := h.regions
    simp only [DocumentView.regions, Layout.addAll_append, Layout.addAll_cons] at hadd
    obtain ⟨layout₂, ⟨layout₁, hadd₁, hadd₂⟩, layout₃, hadd₃, hadd₄⟩ := hadd
    rw [← Layout.addTable_eq_ok hholds] at hadd₂
    dsimp only at hrange
    refine ⟨(), h.header, (), h.identifier, layout₁, hadd₁, _, h.rootLocation, root, h.root,
      layout₂, hadd₂, _, h.poolField, pf, rfl, pl, h.poolLocation, os.length, h.count, (), ?_, _,
      ⟨by omega, rfl⟩, _, ⟨by omega, rfl⟩, (), h.elements, _, ⟨hrange.1, rfl⟩, layout₃, hadd₃, _,
      ⟨os, layout₄, rfl, h.objects, h.distinct, hadd₄, rfl⟩, rfl⟩
    exact fun h0 => h.nonempty (List.length_eq_zero_iff.1 h0)

end Zwirn.Adls
