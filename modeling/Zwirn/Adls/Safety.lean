import Zwirn.Adls.RoundTrip

/-!
# Parsing is safe

The slices and sums that the source takes without a check of their own are checked here as the
machine checks them: `Document.parseChecked` is the parser in which they may fault. `parse_safe`
states that none of them does, for any buffer, and what an accepted buffer looks like: the regions
reached lie inside it and apart (`LaidOut`), and each slot stands alone in its table (`SlotAlone`).
-/

namespace Zwirn.Adls

open Lib

/-! ## Faults -/

/-- How a run ends without a result: with a reported failure, or by a fault. -/
inductive Stop
  | reported (error : Error)
  | sliceOutOfRange (start stop : Nat)
  | overflow
deriving DecidableEq, Repr

/-- An outcome without faults. -/
def reported {α : Type} : Except Error α → Except Stop α := mapError .reported

/-- A slice that faults when its range does not lie in the bytes. -/
def sliceAt (bytes : Bytes) (start stop : Nat) : Except Stop Bytes := do
  require (start ≤ stop ∧ stop ≤ bytes.length) (.sliceOutOfRange start stop)
  pure (slice bytes start (stop - start))

/-- A sum that faults when it does not fit. -/
def plus (a b : Nat) : Except Stop Nat := okOr (checkedAdd a b) .overflow

/-- A slice whose range lies in the bytes does not fault. -/
theorem sliceAt_eq {bytes : Bytes} {start stop : Nat} (h : start ≤ stop) (h' : stop ≤ bytes.length) :
    sliceAt bytes start stop = .ok (slice bytes start (stop - start)) := by
  rw [sliceAt, require_of ⟨h, h'⟩]
  rfl

/-- A sum that fits does not fault. -/
theorem plus_eq {a b : Nat} (h : a + b < usizeBound) : plus a b = .ok (a + b) := by
  rw [plus, checkedAdd, if_pos h]
  rfl

section
variable {α β : Type}

/-- A success is one without faults. -/
@[simp] theorem reported_ok (a : α) : reported (.ok a) = .ok a := rfl
/-- A failure is reported as it is. -/
@[simp] theorem reported_error (e : Error) : reported (.error e : Except Error α) =
    .error (.reported e) := rfl
/-- A pure value is one without faults. -/
@[simp] theorem reported_pure (a : α) : reported (pure a) = pure a := rfl

/-- Sequences agree when what follows the first part does on each of its results. -/
theorem reported_bind_congr {x : Except Error α} {f : α → Except Error β} {g : α → Except Stop β}
    (h : ∀ a, x = .ok a → g a = reported (f a)) :
    reported x >>= g = reported (x >>= f) := by
  cases x with
  | error e => rfl
  | ok a => exact h a rfl

end

/-! ## The checked walk -/

/-- The text of a string. -/
def Parser.stringText (parser : Parser) (handle : NodeHandle) (place : StringPlace) :
    Except Stop Str := do
  let stop ← plus place.bytesLocation place.length
  let sourceBytes ← sliceAt parser.bytes place.bytesLocation stop
  okOr (decode sourceBytes) (.reported (.invalidSourceUtf8 handle))

/-- One round of the loop over the patch objects. Where the source indexes a slice or adds without a
check, it faults instead of failing. -/
def Parser.parseObjectChecked (parser : Parser) (documentId elementsLocation : Nat)
    (st : ParseState) (index : Nat) : Except Stop ParseState := do
  let elementOffset ← reported (okOr (checkedMul index u32Size)
    (.malformed elementsLocation "patch-object vector"))
  let elementLocation ← reported
    (parser.checkedAdd elementsLocation elementOffset elementsLocation "patch-object vector")
  let objectLocation ← reported (parser.followUoffset elementLocation u32Size "patch object")
  let poolIndex ← reported
    (okOr (u32TryFrom index) (.malformed elementLocation "patch-object index"))
  match st.objectIndexes.find? objectLocation with
  | some firstIndex => .error (.reported (.duplicatePatchObjectTable firstIndex poolIndex))
  | none =>
    let st := { st with objectIndexes := st.objectIndexes.insert objectLocation poolIndex }
    let object ← reported (parser.table objectLocation "patch object")
    let layout ← reported (st.layout.addTable object "patch object")
    let st := { st with layout := layout }
    let typeId ← reported (parser.typeId object)
    reported (require (¬ (index = 0 ∧ typeId ≠ 0)) (.malformed objectLocation "root patch object"))
    match NodeKind.fromTypeId typeId with
    | none => pure st
    | some kind =>
      match ← reported (object.field parser 10 u32Size u32Size "patch object f10") with
      | none => pure st
      | some sourceFieldLocation =>
        let handle : NodeHandle := ⟨poolIndex, documentId⟩
        let place ← reported (parser.sourceString sourceFieldLocation)
        let layout ← reported (st.layout.add place.location place.stop .string "source string")
        let source ← parser.stringText handle place
        pure { st with
          layout := layout
          sources := st.sources ++ [⟨handle, kind, source⟩]
          sourceFieldLocations := st.sourceFieldLocations ++ [sourceFieldLocation] }

/-- The parser with its unchecked slices and sums. A fault is an outcome of its own, so that it can
be shown to be none. -/
def Document.parseChecked (documentId : Nat) (bytes : Bytes) : Except Stop Document := do
  reported (require (headerSize ≤ bytes.length) .invalidHeader)
  let identifier ← sliceAt bytes 4 8
  reported (require (identifier = fileIdentifier) .invalidIdentifier)
  let parser : Parser := ⟨bytes⟩
  let layout ← reported (Layout.new.add 0 headerSize .header "ADLS header")
  let rootLocation ← reported (parser.followUoffset 0 u32Size "root table")
  let root ← reported (parser.table rootLocation "root table")
  let layout ← reported (layout.addTable root "root table")
  let poolField ← reported (root.field parser 0 u32Size u32Size "root f0")
  let poolField ← reported (okOr poolField .missingPatchObjectPool)
  let poolLocation ← reported (parser.followUoffset poolField u32Size "patch-object vector")
  let objectCount ← reported (parser.readU32 poolLocation "patch-object vector")
  reported (require (objectCount ≠ 0) (.malformed poolLocation "patch-object vector"))
  let elementsLocation ← reported
    (parser.checkedAdd poolLocation u32Size poolLocation "patch-object vector")
  let elementsSize ← reported (okOr (checkedMul objectCount u32Size)
    (.malformed poolLocation "patch-object vector"))
  reported (parser.requireRange elementsLocation elementsSize "patch-object vector")
  let poolEnd ← reported (okOr (Lib.checkedAdd elementsLocation elementsSize)
    (.malformed poolLocation "patch-object vector"))
  let layout ← reported (layout.add poolLocation poolEnd .vector "patch-object vector")
  let st ← (List.range objectCount).foldlM (parser.parseObjectChecked documentId elementsLocation)
    ⟨layout, .empty, [], []⟩
  pure ⟨bytes, st.sources, st.sourceFieldLocations⟩

/-! ## No faults -/

section
variable {parser : Parser}

/-- The bytes of a string that was found are there. Its terminator was read behind them, so neither
the sum nor the slice can fault. -/
theorem Parser.stringText_eq {handle : NodeHandle} {place : StringPlace} {slot : Nat}
    (h : parser.sourceString slot = .ok place) : parser.stringText handle place =
      reported (okOr (decode (slice parser.bytes place.bytesLocation place.length))
        (.invalidSourceUtf8 handle)) := by
  obtain ⟨-, -, hstop, hterminator⟩ := Parser.sourceString_eq_ok.1 h
  have hlt := (List.getElem?_eq_some_iff.1 hterminator).1
  have hsum : place.bytesLocation + place.length < usizeBound := by
    simp only [StringPlace.stop, StringPlace.bytesLocation] at hstop ⊢
    omega
  have hslice := sliceAt_eq (Nat.le_add_right place.bytesLocation place.length) hlt.le
  rw [Nat.add_sub_cancel_left] at hslice
  unfold Parser.stringText
  rw [plus_eq hsum]
  show (sliceAt parser.bytes place.bytesLocation (place.bytesLocation + place.length) >>=
    fun sourceBytes => okOr (decode sourceBytes) (.reported (.invalidSourceUtf8 handle))) = _
  rw [hslice]
  cases hdecode : decode (slice parser.bytes place.bytesLocation place.length) <;>
    simp [bind, Except.bind, okOr, hdecode]

/-- A round of the loop does not fault, and does what it does without the checks. The only
operations that could are those on the string, behind the check of its range. -/
theorem Parser.parseObjectChecked_eq (documentId elementsLocation : Nat) (st : ParseState)
    (index : Nat) : parser.parseObjectChecked documentId elementsLocation st index =
      reported (parser.parseObject documentId elementsLocation st index) := by
  unfold Parser.parseObjectChecked Parser.parseObject
  refine reported_bind_congr fun _ _ => reported_bind_congr fun _ _ =>
    reported_bind_congr fun objectLocation _ => reported_bind_congr fun _ _ => ?_
  cases st.objectIndexes.find? objectLocation with
  | some firstIndex => rfl
  | none =>
    refine reported_bind_congr fun _ _ => reported_bind_congr fun _ _ =>
      reported_bind_congr fun typeId _ => reported_bind_congr fun _ _ => ?_
    cases NodeKind.fromTypeId typeId with
    | none => rfl
    | some kind =>
      refine reported_bind_congr fun field _ => ?_
      cases field with
      | none => rfl
      | some slot =>
        refine reported_bind_congr fun _ hplace => reported_bind_congr fun _ _ => ?_
        rw [Parser.stringText_eq hplace]
        exact reported_bind_congr fun _ _ => rfl

/-- A loop does not fault if its rounds do not. -/
theorem foldlM_reported {σ α : Type} {f : σ → α → Except Error σ} {g : σ → α → Except Stop σ}
    (h : ∀ s a, g s a = reported (f s a)) (s : σ) (xs : List α) :
    xs.foldlM g s = reported (xs.foldlM f s) := by
  induction xs generalizing s with
  | nil => rfl
  | cons x xs ih =>
    rw [List.foldlM_cons, List.foldlM_cons, h]
    exact reported_bind_congr fun t _ => ih t

/-- The parser never faults. The slice of the file identifier comes behind the check of the header
size, and the rounds of the loop do not fault. -/
theorem Document.parseChecked_eq (documentId : Nat) (bytes : Bytes) :
    Document.parseChecked documentId bytes = reported (Document.parse documentId bytes) := by
  unfold Document.parseChecked Document.parse
  refine reported_bind_congr fun _ hheader => ?_
  have hheader : 8 ≤ bytes.length := require_eq_ok.1 hheader
  rw [sliceAt_eq (by omega) hheader]
  refine reported_bind_congr fun _ _ => reported_bind_congr fun _ _ =>
    reported_bind_congr fun _ _ => reported_bind_congr fun _ _ =>
    reported_bind_congr fun _ _ => reported_bind_congr fun _ _ =>
    reported_bind_congr fun _ _ => reported_bind_congr fun _ _ =>
    reported_bind_congr fun _ _ => reported_bind_congr fun _ _ =>
    reported_bind_congr fun _ _ => reported_bind_congr fun _ _ =>
    reported_bind_congr fun _ _ => reported_bind_congr fun _ _ =>
    reported_bind_congr fun _ _ => ?_
  rw [foldlM_reported fun _ _ => Parser.parseObjectChecked_eq _ _ _ _]
  exact reported_bind_congr fun _ _ => rfl

end

/-! ## The layout of accepted buffers -/

/-- The slot of a source stands alone: an aligned word of its own table that overlaps neither the
table's first word, nor the type id, nor the start of any other field. -/
structure SlotAlone (bytes : Bytes) (t : Table) (slot : Nat) : Prop where
  field : t.field ⟨bytes⟩ 10 u32Size u32Size "patch object f10" = .ok (some slot)
  aligned : slot % 4 = 0
  behindFirst : t.location + 4 ≤ slot
  inside : slot + 4 ≤ t.location + t.objectLength
  typeId : ∀ l, t.field ⟨bytes⟩ 0 u32Size u32Size "patch object f0" = .ok (some l) →
    l + 4 ≤ slot ∨ slot + 4 ≤ l
  others : ∀ k, k ≠ 10 → vtableHeaderSize + 2 * k + 2 ≤ t.vtableLength →
    let offset := leWord (slice bytes (t.vtableLocation + (vtableHeaderSize + 2 * k)) 2)
    t.location + offset < slot ∨ slot + 4 ≤ t.location + offset

/-- What was reached of a buffer lies in it and apart. So a slot can be overwritten without a change
to anything else that was reached. -/
structure LaidOut (bytes : Bytes) (v : DocumentView) (doc : Document) : Prop where
  inside : ∀ r ∈ v.regions, r.1.start < r.1.stop ∧ r.1.stop ≤ bytes.length
  apart : v.regions.Pairwise fun a b => a.1.Compatible b.1
  distinct : (v.objects.map (·.table.location)).Nodup
  ascending : doc.sources.Pairwise fun a b => a.handle.index < b.handle.index
  slots : ∀ slot ∈ doc.sourceFieldLocations, ∃ o ∈ v.objects, SlotAlone bytes o.table slot

/-- No other region reaches into the slot of a source: it lies in its table behind the first word,
and the other fields start outside of it. -/
theorem Accepts.slotAlone {bytes : Bytes} {v : DocumentView} (h : Accepts bytes v) {o : ObjectView}
    (ho : o ∈ v.objects) {s : SourceView} (hs : o.source = some s) :
    SlotAlone bytes o.table s.fieldLocation := by
  obtain ⟨i, hi⟩ := List.getElem?_of_mem ho
  have hobj := h.objects i o hi
  have hsource := hobj.source
  rw [hs] at hsource
  obtain ⟨front, back, hsplit⟩ := List.append_of_mem ho
  obtain ⟨ht, hslot, hfirst, hinside⟩ := h.slot hsplit hs
  refine ⟨hsource.2.1, hslot.aligned, hfirst, hinside, fun l hl => ?_, fun k hk hle => ?_⟩
  · exact (Table.field_spec hl).apart hslot (by omega)
  · simp only [vtableHeaderSize] at hle ⊢
    have hmem : 4 + 2 * k ∈ entryOffsets o.table.vtableLength :=
      mem_entryOffsets.2 ⟨by omega, by omega, by omega⟩
    have halone := hslot.alone _ hmem (by omega)
    dsimp only at halone
    omega

/-- What an accepted buffer shows lies in it, apart from each other but for what may be shared. The
regions were added one by one, and each was checked against those before. -/
theorem Accepts.laidOut {bytes : Bytes} {v : DocumentView} (h : Accepts bytes v) (documentId : Nat) :
    LaidOut bytes v (v.document documentId bytes) := by
  obtain ⟨hnonempty, hpair⟩ := Layout.addAll_eq_ok.1 h.regions
  have hparse : Document.parse documentId bytes = .ok (v.document documentId bytes) :=
    Document.parse_eq_ok.2 ⟨v, h, rfl⟩
  refine ⟨fun r hr => ⟨hnonempty r hr, h.region_le r hr⟩, hpair, h.distinct,
    (Document.parse_ordered hparse).1, fun slot hslot => ?_⟩
  obtain ⟨e, he, rfl⟩ := List.mem_map.1 hslot
  obtain ⟨⟨o, i⟩, ho, he⟩ := List.mem_flatMap.1 he
  obtain ⟨s, hs, rfl⟩ := List.mem_map.1 he
  have hmem : o ∈ v.objects := by
    obtain ⟨_, _, heq⟩ := List.mem_zipIdx ho
    rw [heq]
    exact List.getElem_mem _
  exact ⟨o, hmem, h.slotAlone hmem (Option.mem_toList.1 hs)⟩

/-- Parsing any buffer returns or reports a failure, without a fault; and what it reached of an
accepted buffer is laid out apart. The operations that could fault are the slices and the sums of
the code. Each comes behind a check of its range. -/
theorem Document.parse_safe (documentId : Nat) (bytes : Bytes) :
    Document.parseChecked documentId bytes = reported (Document.parse documentId bytes) ∧
    ∀ doc, Document.parse documentId bytes = .ok doc →
      ∃ v, Accepts bytes v ∧ doc = v.document documentId bytes ∧ LaidOut bytes v doc := by
  refine ⟨Document.parseChecked_eq documentId bytes, fun doc hdoc => ?_⟩
  obtain ⟨v, hv, rfl⟩ := Document.parse_eq_ok.1 hdoc
  exact ⟨v, hv, rfl, hv.laidOut documentId⟩

end Zwirn.Adls
