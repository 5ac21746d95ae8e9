import Zwirn.Adls.Safety

/-!
# Planned sizes

The planner and the builder of a rewrite each compute the padding of every string from a size of
their own. `exactSizes` are the sizes in exact arithmetic, with the strings at `stringPlaces`: the
planner returns the last of them when all are within the limit (`planRewriteSize_exact`), and the
buffer that the builder makes has that length and holds the strings at these places
(`appendChanges_written`).
-/

namespace Zwirn.Adls

open Lib

/-! ## Exact sizes -/

/-- The sizes of a buffer as strings of the given lengths are appended to it: each is aligned, and
takes its length word, its bytes and a terminator. The initial size comes first. -/
def exactSizes (initialSize : Nat) (lens : List Nat) : List Nat :=
  lens.scanl (fun size len => alignUp 4 size + 4 + len + 1) initialSize

/-- Where the strings are appended. -/
def stringPlaces : Nat → List Nat → List StringPlace
  | _, [] => []
  | size, len :: lens =>
    ⟨alignUp 4 size, len⟩ :: stringPlaces (alignUp 4 size + 4 + len + 1) lens

/-- The padding brings a size to the next multiple of four. -/
theorem add_padding (size : Nat) : size + padding size = alignUp 4 size :=
  add_padding_eq_alignUp (by decide) size

/-- The size after one more string, which starts at the next multiple of four, with its length word
and its terminator. -/
theorem paddedSize_eq : paddedSize = fun size len => alignUp 4 size + 4 + len + 1 := by
  funext size len
  rw [paddedSize, add_padding, u32Size]

/-- The sizes on the way start with the size before the first string. -/
theorem exactSizes_cons (size len : Nat) (lens : List Nat) :
    exactSizes size (len :: lens) = size :: exactSizes (paddedSize size len) lens := by
  rw [exactSizes, List.scanl_cons, exactSizes, paddedSize_eq]

/-- The last size on the way is that of the rewritten buffer. -/
theorem getLast?_exactSizes (size : Nat) (lens : List Nat) :
    (exactSizes size lens).getLast? = some (rewrittenSize size lens) := by
  rw [exactSizes, List.getLast?_scanl, rewrittenSize, paddedSize_eq]

/-- The sizes grow, so that the last one bounds them. -/
theorem exactSizes_le_iff {size limit : Nat} {lens : List Nat} :
    (∀ m ∈ exactSizes size lens, m ≤ limit) ↔ rewrittenSize size lens ≤ limit := by
  refine ⟨fun h => h _ (List.mem_of_getLast? (getLast?_exactSizes size lens)), fun h => ?_⟩
  induction lens generalizing size with
  | nil => simpa [exactSizes, rewrittenSize] using h
  | cons len lens ih =>
    rw [exactSizes_cons, List.forall_mem_cons]
    exact ⟨(le_rewrittenSize size (len :: lens)).trans h, ih h⟩

/-- The planner returns the exact size when no size on the way exceeds the limit. -/
theorem planRewriteSize_exact {size n : Nat} {lens : List Nat} :
    planRewriteSize size lens = .ok n ↔ (∀ m ∈ exactSizes size lens, m ≤ maxRewrittenAdlsSize) ∧
      (exactSizes size lens).getLast? = some n := by
  rw [planRewriteSize_eq_ok, exactSizes_le_iff, getLast?_exactSizes, Option.some.injEq]
  refine ⟨fun h => ⟨h.1 ▸ h.2, h.1.symm⟩, fun h => ⟨h.2.symm, h.2 ▸ h.1⟩⟩

/-! ## What the builder writes -/

/-- The buffer holds the string of a change at a place, and the slot of the change leads there. The
length word and the offset hold what they should, without being cut to 32 bits. -/
structure StringWritten (output : Bytes) (c : Change) (place : StringPlace) : Prop where
  aligned : 4 ∣ place.location
  stop_le : place.stop ≤ output.length
  length_eq : place.length = utf8Len c.replacement
  length_fits : place.length < u32Bound
  length_word : leWord (slice output place.location 4) = place.length
  content : slice output place.bytesLocation place.length = encode c.replacement
  terminator : output[place.bytesLocation + place.length]? = some 0
  behind : c.fieldLocation + 4 ≤ place.location
  offset_fits : place.location - c.fieldLocation < u32Bound
  offset_word : leWord (slice output c.fieldLocation 4) = place.location - c.fieldLocation

/-- The slots of two changes share no byte. -/
def Change.Apart (c c' : Change) : Prop :=
  c.fieldLocation + 4 ≤ c'.fieldLocation ∨ c'.fieldLocation + 4 ≤ c.fieldLocation

/-- What is written stays where neither the slot nor the string is overwritten. Later changes of a
batch meet this condition, since each has a slot and a string of its own. -/
theorem StringWritten.congr {b b' : Bytes} {c : Change} {place : StringPlace}
    (h : StringWritten b c place) (hlen : b.length ≤ b'.length)
    (hsame : ∀ i, c.fieldLocation ≤ i ∧ i < c.fieldLocation + 4 ∨
      place.location ≤ i ∧ i < place.stop → b'[i]? = b[i]?) : StringWritten b' c place := by
  have hslot : slice b' c.fieldLocation 4 = slice b c.fieldLocation 4 :=
    slice_congr fun i h1 h2 => hsame i (.inl ⟨h1, h2⟩)
  have hstring : ∀ start len, place.location ≤ start → start + len ≤ place.stop →
      slice b' start len = slice b start len :=
    fun start len h1 h2 => slice_congr fun i hi hi' => hsame i (.inr ⟨by omega, by omega⟩)
  refine ⟨h.aligned, h.stop_le.trans hlen, h.length_eq, h.length_fits, ?_, ?_, ?_, h.behind,
    h.offset_fits, by rw [hslot, h.offset_word]⟩
  · rw [hstring _ _ (Nat.le_refl _) (by unfold StringPlace.stop u32Size; omega), h.length_word]
  · rw [hstring _ _ (by unfold StringPlace.bytesLocation; omega)
      (by unfold StringPlace.stop StringPlace.bytesLocation; omega), h.content]
  · rw [hsame _ (.inr ⟨by unfold StringPlace.bytesLocation; omega, by
      unfold StringPlace.stop StringPlace.bytesLocation; omega⟩), h.terminator]

/-- One change writes its string behind the buffer. Within the size limit nothing is cut off by the
32-bit words. -/
theorem Changed.written {b b' : Bytes} {c : Change} (h : Changed b b' c.fieldLocation c.replacement)
    (hslot : c.fieldLocation + 4 ≤ b.length)
    (hsize : paddedSize b.length (utf8Len c.replacement) ≤ maxRewrittenAdlsSize) :
    StringWritten b' c ⟨alignUp 4 b.length, utf8Len c.replacement⟩ := by
  have hplace : newPlace b c.replacement = ⟨alignUp 4 b.length, utf8Len c.replacement⟩ := by
    rw [newPlace, add_padding]
  have hle : b.length ≤ alignUp 4 b.length := (alignUp_isLeast (by decide) _).1.1
  have hbound : maxRewrittenAdlsSize < u32Bound := by decide
  rw [paddedSize_eq] at hsize
  obtain ⟨hlength, -, hslotWord, hsizeWord, hcontent, hterminator⟩ := h
  rw [hplace] at hlength hslotWord hsizeWord hcontent hterminator
  dsimp only at hslotWord hsizeWord hsize
  exact ⟨(alignUp_isLeast (by decide) _).1.2, hlength.ge, rfl, by dsimp only; omega, hsizeWord,
    hcontent, hterminator, by dsimp only; omega, by dsimp only; omega, hslotWord⟩

/-- Changes with slots of their own in the buffer are written at the planned places, and the rest of
the buffer stays. -/
theorem appendChanges_written {changes : List Change} {b : Bytes}
    (hslots : ∀ c ∈ changes, c.fieldLocation + 4 ≤ b.length ∧
      c.replacementLength = utf8Len c.replacement) (hapart : changes.Pairwise Change.Apart)
    (hsize : rewrittenSize b.length (changes.map fun c => utf8Len c.replacement) ≤
      maxRewrittenAdlsSize) :
    ∃ b', changes.foldlM appendChange b = .ok b' ∧
      b'.length = rewrittenSize b.length (changes.map fun c => utf8Len c.replacement) ∧
      List.Forall₂ (StringWritten b') changes
        (stringPlaces b.length (changes.map fun c => utf8Len c.replacement)) ∧
      ∀ i, i < b.length → (∀ c ∈ changes, i < c.fieldLocation ∨ c.fieldLocation + 4 ≤ i) →
        b'[i]? = b[i]? := by
  induction changes generalizing b with
  | nil => exact ⟨b, rfl, rfl, .nil, fun _ _ _ => rfl⟩
  | cons c changes ih =>
    rw [List.forall_mem_cons] at hslots
    rw [List.pairwise_cons] at hapart
    rw [List.map_cons] at hsize ⊢
    have hstep : paddedSize b.length (utf8Len c.replacement) ≤ maxRewrittenAdlsSize :=
      (le_rewrittenSize _ _).trans hsize
    obtain ⟨b₁, hone, hchanged⟩ := appendChange_ok hslots.1.1 hstep
    rw [← hslots.1.2] at hone
    have hlength : b₁.length = paddedSize b.length (utf8Len c.replacement) := hchanged.length_eq
    obtain ⟨b', hrest, hlength', hwritten, hsame⟩ := @ih b₁
      (fun c' hc' => ⟨(hslots.2 c' hc').1.trans hchanged.length_le, (hslots.2 c' hc').2⟩) hapart.2
      (by rwa [hlength])
    rw [hlength] at hlength' hwritten
    have hself := hchanged.written hslots.1.1 hstep
    refine ⟨b', ?_, hlength', ?_, fun i hi hout => ?_⟩
    · rw [List.foldlM_cons, Except.bind_eq_ok]
      exact ⟨b₁, hone, hrest⟩
    · rw [stringPlaces, ← show paddedSize b.length (utf8Len c.replacement) = _ from
        congrFun (congrFun paddedSize_eq _) _]
      refine .cons (hself.congr ?_ fun i hi => hsame i ?_ fun c' hc' => ?_) hwritten
      · rw [hlength', hlength]
        exact le_rewrittenSize _ _
      · have hstop := hself.stop_le
        have hslot := hslots.1.1.trans hchanged.length_le
        rcases hi with hi | hi <;> omega
      -- later slots are beside this one, and in front of the string
      · have hin := (hslots.2 c' hc').1
        have hbehind : b.length ≤ alignUp 4 b.length := (alignUp_isLeast (by decide) _).1.1
        have hbeside : c.Apart c' := hapart.1 c' hc'
        unfold Change.Apart at hbeside
        dsimp only at hi
        omega
    · rw [List.forall_mem_cons] at hout
      rw [hsame i (hi.trans_le hchanged.length_le) hout.2, hchanged.same i hi hout.1]

/-! ## The slots of a document -/

/-- The tables of the objects are beside each other. -/
theorem Accepts.tables_apart {b : Bytes} {v : DocumentView} (h : Accepts b v) :
    v.objects.Pairwise fun o o' => o.table.placed.Disjoint o'.table.placed := by
  have hpair := (Layout.addAll_eq_ok.1 h.regions).2
  rw [DocumentView.regions, List.pairwise_append, List.pairwise_cons, List.pairwise_cons,
    List.pairwise_flatMap] at hpair
  have hmem : ∀ o : ObjectView, (o.table.placed, "patch object") ∈ o.regions := fun o => by
    simp [ObjectView.regions, Table.regions]
  exact hpair.2.1.2.2.imp fun hobjects => (hobjects _ (hmem _) _ (hmem _)).disjoint (.inr rfl)

/-- An entry is the source of one of the objects. -/
theorem exists_object {os : List ObjectView} {n : Nat} {e : Nat × SourceView}
    (he : e ∈ sourceEntriesFrom n os) : ∃ o ∈ os, o.source = some e.2 := by
  obtain ⟨⟨o, i⟩, ho, he⟩ := List.mem_flatMap.1 he
  obtain ⟨s, hs, rfl⟩ := List.mem_map.1 he
  exact ⟨o, List.fst_mem_of_mem_zipIdx ho, Option.mem_toList.1 hs⟩

/-- The slots of the sources share no byte. Each slot lies in the table of its own object, and the
tables are disjoint. -/
theorem Accepts.slots_apart {b : Bytes} {v : DocumentView} (h : Accepts b v) :
    (sourceEntriesFrom 0 v.objects).Pairwise fun e e' =>
      e.2.fieldLocation + 4 ≤ e'.2.fieldLocation ∨ e'.2.fieldLocation + 4 ≤ e.2.fieldLocation := by
  have htables : (v.objects.zipIdx 0).Pairwise
      fun a a' => a.1.table.placed.Disjoint a'.1.table.placed := by
    have hmap := h.tables_apart
    rw [← List.zipIdx_map_fst 0 v.objects, List.pairwise_map] at hmap
    exact hmap
  rw [sourceEntriesFrom, List.pairwise_flatMap]
  refine ⟨fun a _ => ?_, htables.imp_of_mem fun ha ha' hdisjoint e he e' he' => ?_⟩
  · cases a.1.source <;> simp
  · obtain ⟨s, hs, rfl⟩ := List.mem_map.1 he
    obtain ⟨s', hs', rfl⟩ := List.mem_map.1 he'
    have hslot := h.slotAlone (List.fst_mem_of_mem_zipIdx ha) (Option.mem_toList.1 hs)
    have hslot' := h.slotAlone (List.fst_mem_of_mem_zipIdx ha') (Option.mem_toList.1 hs')
    have h1 := hslot.behindFirst
    have h2 := hslot.inside
    have h1' := hslot'.behindFirst
    have h2' := hslot'.inside
    dsimp only
    rcases hdisjoint with hd | hd <;> simp only [Table.placed] at hd <;> omega

/-- The changes of a batch have slots of their own in the buffer. The slots of the changes are among
those of the sources. -/
theorem Accepts.changes_apart {b : Bytes} {v : DocumentView} (h : Accepts b v) (d : Nat)
    (want : SourceNode → Option Str) :
    (∀ c ∈ changesFrom d want 0 v.objects, c.fieldLocation + 4 ≤ b.length ∧
      c.replacementLength = utf8Len c.replacement) ∧
    (changesFrom d want 0 v.objects).Pairwise Change.Apart := by
  refine ⟨fun c hc => ?_, ?_⟩
  · obtain ⟨e, he, hc⟩ := List.mem_filterMap.1 hc
    obtain ⟨t, -, -, rfl⟩ := Document.changeOf_eq_some.1 hc
    obtain ⟨o, ho, hs⟩ := exists_object he
    obtain ⟨front, back, hsplit⟩ := List.append_of_mem ho
    obtain ⟨ht, -, -, hinside⟩ := h.slot hsplit hs
    exact ⟨hinside.trans ht.table_in, rfl⟩
  · refine List.pairwise_filterMap.2 (h.slots_apart.imp fun hapart c hc c' hc' => ?_)
    obtain ⟨t, -, -, rfl⟩ := Document.changeOf_eq_some.1 hc
    obtain ⟨t', -, -, rfl⟩ := Document.changeOf_eq_some.1 hc'
    exact hapart

/-! ## The whole rewrite -/

/-- Planning is exact: it returns the last of the exact sizes when none of them exceeds the limit.
And a batch with changes whose size was planned is built as planned: the buffer has that length, and
each changed text at its aligned place behind the buffer, with a length word and an offset that hold
its length and its distance from the slot. -/
theorem Document.rewrite_planned :
    (∀ (initialSize : Nat) (lens : List Nat) (n : Nat), planRewriteSize initialSize lens = .ok n ↔
      (∀ size ∈ exactSizes initialSize lens, size ≤ 2 ^ 31) ∧
        (exactSizes initialSize lens).getLast? = some n) ∧
    ∀ (d : Nat) (bytes : Bytes) (doc : Document), Document.parse d bytes = .ok doc →
      ∀ (replacements : List (NodeHandle × Str)) (requested : List (Option Str))
        (changes : List Change) (n : Nat), doc.request replacements = .ok requested →
        doc.changes requested = .ok changes → changes ≠ [] →
        planRewriteSize bytes.length (changes.map fun c => utf8Len c.replacement) = .ok n →
        ∀ d', ∃ output, changes.foldlM appendChange bytes = .ok output ∧
          doc.rewrite d' replacements = .ok (.owned output) ∧ output.length = n ∧
          List.Forall₂ (StringWritten output) changes
            (stringPlaces bytes.length (changes.map fun c => utf8Len c.replacement)) := by
  refine ⟨fun initialSize lens n => planRewriteSize_exact, ?_⟩
  intro d bytes doc hparse replacements requested changes n hrequested hchanges hne hplan d'
  obtain rfl := Document.parse_bytes hparse
  have ho := (Document.parse_ordered hparse).1
  obtain ⟨hnodup, hfrom, rfl⟩ := (Document.request_eq_ok ho).1 hrequested
  obtain ⟨rfl, -⟩ := Document.changes_eq_ok.1 hchanges
  obtain ⟨rfl, hsize⟩ := planRewriteSize_eq_ok.1 hplan
  obtain ⟨out, hout, -⟩ := Document.rewrite_ok hparse hnodup hfrom (fun _ => hsize) d'
  rcases (Document.rewrite_eq_ok ho hnodup hfrom).1 hout with ⟨hnil, -⟩ | ⟨-, -, output, doc', hfold,
    -, rfl⟩
  · exact absurd hnil hne
  obtain ⟨v, hacc, hdoc⟩ := Document.parse_eq_ok.1 hparse
  obtain ⟨hslots, hapart⟩ := hacc.changes_apart d (wanted replacements)
  rw [← @DocumentView.wantedChanges_eq d doc.bytes v, ← hdoc] at hslots hapart
  obtain ⟨output', hfold', hlength, hwritten, -⟩ := appendChanges_written hslots hapart hsize
  obtain rfl := Except.ok.inj (hfold.symm.trans hfold')
  exact ⟨output, hfold, hout, hlength, hwritten⟩

/-- The sources of two nodes that share a string are replaced by two strings. Each gets its place
behind the old buffer, the second one behind the first. -/
theorem sampleDocument_planned : ∃ output,
    sampleDocument.rewrite 1 [(⟨2, 0⟩, ['d']), (⟨1, 0⟩, ['b', 'c'])] = .ok (.owned output) ∧
    output.length = 122 ∧
    List.Forall₂ (StringWritten output) [⟨84, ['b', 'c'], 2⟩, ⟨96, ['d'], 1⟩]
      [⟨108, 2⟩, ⟨116, 1⟩] := by
  obtain ⟨output, -, hout, hlength, hwritten⟩ := Document.rewrite_planned.2 0 sharedBuffer
    sampleDocument (by decide) [(⟨2, 0⟩, ['d']), (⟨1, 0⟩, ['b', 'c'])] [some ['b', 'c'], some ['d']]
    [⟨84, ['b', 'c'], 2⟩, ⟨96, ['d'], 1⟩] 122 (by decide) (by decide) (by decide) (by decide) 1
  exact ⟨output, hout, hlength, hwritten⟩

end Zwirn.Adls
