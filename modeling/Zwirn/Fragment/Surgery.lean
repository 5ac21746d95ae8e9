import Zwirn.Fragment.Grammar
import Zwirn.Fragment.ReadBack

/-!
# Rewriting is surgical

`ParsedSource.rewrite_surgical` states what a batch does to a text in terms of the places of its
fragments: the source of each named fragment and its hash are substituted and every other character
stays. It rests on what the parser establishes of the places, that they do not run backwards
(`Ordered`) and that each hash stands behind its marker's path (`FragmentPlace.Stored`).
-/

namespace Zwirn.Fragment

open Lib

/-! ## Places -/

/-- The places follow each other from `cursor` on, each hash behind its source. -/
def Ordered (source : Str) : Nat → List FragmentPlace → Prop
  | cursor, [] => cursor ≤ source.length
  | cursor, f :: fs =>
    cursor ≤ f.start ∧ f.start ≤ f.stop ∧ f.stop ≤ f.hashLocation.range.1 ∧
      f.hashLocation.range.1 ≤ f.hashLocation.range.2 ∧ Ordered source f.hashLocation.range.2 fs

/-- The place of a hash on the closing line, which begins where the source ends: a stored one stands
behind the path and blanks, a missing one is inserted directly behind the path. -/
def FragmentPlace.Stored (comment source : Str) (f : FragmentPlace) : Prop :=
  match f.hashLocation with
  | .missing insertion =>
    f.baseline = none ∧ MarkerPrefix comment false f.path (span source f.stop insertion)
  | .present start stop => ∃ hash gap, f.baseline = some hash ∧
      MarkerPrefix comment false f.path (span source f.stop gap) ∧
      Blank (span source gap start) ∧ gap < start ∧ span source start stop = hash.display

/-- The range of a hash lies in its line. -/
theorem FragmentSection.range_le {comment : Str} {s : FragmentSection} (h : s.Ok comment) :
    s.location.range.1 ≤ s.location.range.2 ∧ s.location.range.2 ≤ s.closing.text.length := by
  obtain ⟨front, old, rest, hcontent, h1, h2⟩ := h.closing.range_parts
  rw [Line.text, hcontent, h1, h2]
  simp only [List.length_append]
  omega

/-- The fragments of sections lie one behind the other, each with its hash behind its source. The
induction is on the sections, with the offset at which they begin. -/
theorem ordered_places {comment source : Str} {cursor start : Nat} {ss : List FragmentSection}
    (h : ∀ s ∈ ss, FragmentSection.Ok comment s) (hcursor : cursor ≤ start)
    (hlength : start + (joinLines (ss.flatMap FragmentSection.lines)).length ≤ source.length) :
    Ordered source cursor (FragmentSection.places start ss) := by
  induction ss generalizing cursor start with
  | nil => exact hcursor.trans ((Nat.le_add_right _ _).trans hlength)
  | cons s ss ih =>
    rw [List.flatMap_cons, joinLines_append, List.length_append, ← Nat.add_assoc] at hlength
    obtain ⟨hle, hclosing⟩ := FragmentSection.range_le (h s List.mem_cons_self)
    have hlines : s.sourceStop start + s.closing.text.length =
        start + (joinLines s.lines).length := by
      rw [s.joinLines_lines, FragmentSection.sourceStop, FragmentSection.sourceStart]
      simp only [List.length_append]
      omega
    have hrest := @ih (s.sourceStop start + s.location.range.2)
      (start + (joinLines s.lines).length) (fun s' hs' => h s' (List.mem_cons_of_mem _ hs'))
      (by omega) hlength
    have hstart : cursor ≤ s.sourceStart start := by
      unfold FragmentSection.sourceStart
      omega
    simp only [FragmentSection.places, FragmentSection.place, Ordered, HashLocation.range_shift]
    exact ⟨hstart, Nat.le_add_right _ _, Nat.le_add_right _ _, Nat.add_le_add_left hle _, hrest⟩

/-- The place of the hash of a section is where its closing line stores it. The place is found by
the offset of the closing line in the source, and by the offset of the hash in the line. -/
theorem FragmentSection.stored_place {comment source before after : Str} {s : FragmentSection}
    (h : s.Ok comment) (hsource : source = before ++ (joinLines s.lines ++ after)) :
    (s.place before.length).Stored comment source := by
  generalize hfront : before ++ (joinLines s.gap ++ (s.opening.text ++ joinLines s.body)) = front
  have hstop : s.sourceStop before.length = front.length := by
    rw [← hfront, sourceStop, sourceStart]
    simp only [List.length_append]
    omega
  have htext : source = front ++ (s.closing.content ++ (s.closing.terminator.chars ++ after)) := by
    have hline : s.closing.content ++ (s.closing.terminator.chars ++ after) =
        s.closing.text ++ after := (List.append_assoc _ _ _).symm
    rw [hline, hsource, s.joinLines_lines, ← hfront]
    simp only [List.append_assoc]
  have hclosing := h.closing
  obtain ⟨gap, opening, body, ⟨content, terminator⟩, path, baseline, location⟩ := s
  simp only at hclosing htext
  simp only [FragmentPlace.Stored, place, hstop]
  cases hclosing with
  | @missing pre tail hpre htail =>
    simp only [HashLocation.shift, true_and]
    rw [htext, List.append_assoc, span_eq]
    exact hpre
  | @present pre gap tok tail hash hpre hgap hne hsolid hread htail =>
    have hgap_pos : 0 < gap.length := List.length_pos_iff.2 hne
    simp only [HashLocation.shift]
    refine ⟨hash, front.length + pre.length, rfl, ?_, ?_, by omega, ?_⟩
    · rw [htext, List.append_assoc, span_eq]
      exact hpre
    · have hspan := @span_eq (front ++ pre) gap (tok ++ (tail ++ (terminator.chars ++ after)))
      rw [List.length_append] at hspan
      rw [htext, ← Nat.add_assoc, List.append_assoc, ← List.append_assoc front, List.append_assoc gap,
        List.append_assoc tok, hspan]
      exact hgap
    · have hspan := @span_eq (front ++ pre ++ gap) tok (tail ++ (terminator.chars ++ after))
      rw [List.length_append, List.length_append] at hspan
      rw [BaselineHash.tryFrom_eq_ok.1 hread, htext, ← Nat.add_assoc, ← Nat.add_assoc,
        ← Nat.add_assoc, List.append_assoc, ← List.append_assoc front, List.append_assoc gap,
        ← List.append_assoc (front ++ pre), List.append_assoc tok, hspan]

/-- What the parser establishes of the places of fragments. They come one behind the other, and each
stores its hash in its closing line. -/
theorem ParsedSource.placed {kind : Adls.NodeKind} {p : ParsedSource} {source : Str}
    (h : ParsedSource.parse kind source = .ok p) :
    Ordered source 0 (p.fragments.map (·.toFragmentPlace)) ∧
      ∀ f ∈ p.fragments, f.toFragmentPlace.Stored (markerComment kind) source := by
  obtain ⟨rfl, ss, tail, hs⟩ := ParsedSource.parse_eq_ok.1 h
  refine ⟨?_, fun f hf => ?_⟩
  · rw [hs.places]
    refine ordered_places hs.ok (Nat.le_refl 0) ?_
    rw [hs.source_eq, List.length_append, Nat.zero_add]
    exact Nat.le_add_right _ _
  · obtain ⟨s, hmem, before, after, hsource, hplace⟩ := hs.exists_section hf
    rw [hplace]
    exact FragmentSection.stored_place (hs.ok s hmem) hsource

/-- A stored hash is the text at its place. Without a hash there would be nothing but the place for
one. -/
theorem FragmentPlace.Stored.text {comment source : Str} {f : FragmentPlace}
    (h : f.Stored comment source) {hash : BaselineHash} (hf : f.baseline = some hash) :
    span source f.hashLocation.range.1 f.hashLocation.range.2 = f.hashLocation.storedText hash := by
  unfold FragmentPlace.Stored at h
  cases hl : f.hashLocation with
  | missing insertion =>
    rw [hl] at h
    cases hf.symm.trans h.1
  | present start stop =>
    rw [hl] at h
    obtain ⟨hash', -, hf', -, -, -, htext⟩ := h
    cases hf.symm.trans hf'
    exact htext

/-! ## Edits -/

/-- The edits follow each other from `cursor` on, without overlap. -/
def Forward (source : Str) : Nat → List TextEdit → Prop
  | cursor, [] => cursor ≤ source.length
  | cursor, edit :: edits =>
    cursor ≤ edit.start ∧ edit.start ≤ edit.stop ∧ Forward source edit.stop edits

section
variable {source : Str} {cursor : Nat} {edits : List TextEdit}

/-- Edits from a place on are edits from every place in front of it. -/
theorem Forward.mono (h : Forward source cursor edits) {m : Nat} (hm : m ≤ cursor) :
    Forward source m edits := by
  cases edits with
  | nil => exact hm.trans h
  | cons edit edits => exact ⟨hm.trans h.1, h.2⟩

/-- Edits from a place on begin there or behind it. -/
theorem Forward.behind (h : Forward source cursor edits) : Behind cursor edits := by
  induction edits generalizing cursor with
  | nil => exact Behind.nil
  | cons edit edits ih =>
    exact (Behind.singleton h.1).append ((ih h.2.2).mono (h.1.trans h.2.1))

/-- At most one edit in front of others. -/
theorem Forward.ite_append {start stop : Nat} {new : Str} (c : Prop) [Decidable c]
    (h : Forward source stop edits) (hstart : cursor ≤ start) (hstop : start ≤ stop) :
    Forward source cursor ((if c then [⟨start, stop, new⟩] else []) ++ edits) := by
  split
  · exact ⟨hstart, hstop, h⟩
  · exact h.mono (hstart.trans hstop)

/-- The text up to an edit, the edit, and the text behind it. -/
theorem applyEdits_edit {new : Str} {start stop : Nat} (c : Prop) [Decidable c]
    (hstart : cursor ≤ start) (hstop : start ≤ stop) (h : Behind stop edits) :
    applyEdits source cursor ((if c then [⟨start, stop, new⟩] else []) ++ edits) =
      span source cursor start ++ (if c then new else span source start stop) ++
        applyEdits source stop edits := by
  split
  · rfl
  · rw [List.nil_append, applyEdits_skip hstart (h.mono hstop), applyEdits_skip hstop h,
      List.append_assoc]

/-- The edit that stores a hash stands in front of edits behind its range. -/
theorem Forward.hashEdits {f : FragmentPlace} {want : Option BaselineHash}
    (h : Forward source f.hashLocation.range.2 edits) (hstart : cursor ≤ f.hashLocation.range.1)
    (hstop : f.hashLocation.range.1 ≤ f.hashLocation.range.2) :
    Forward source cursor (f.hashEdits want ++ edits) := by
  cases want with
  | none => exact h.mono (hstart.trans hstop)
  | some hash => exact h.ite_append _ hstart hstop

/-- The edits of fragments run forward. -/
theorem Ordered.forward {fs : List FragmentPlace} (h : Ordered source cursor fs)
    (want : FragmentPlace → FragmentView) :
    Forward source cursor (fs.flatMap fun f => f.edits source (want f)) := by
  induction fs generalizing cursor with
  | nil => exact h
  | cons f fs ih =>
    obtain ⟨h1, h2, h3, h4, hrest⟩ := h
    rw [List.flatMap_cons, FragmentPlace.edits, List.append_assoc]
    exact ((ih hrest).hashEdits h3 h4).ite_append _ h1 h2

/-- A fragment without edits has what is wanted of it. -/
theorem FragmentPlace.edits_eq_nil {source : Str} {f : FragmentPlace} {u : FragmentView} :
    f.edits source u = [] ↔ span source f.start f.stop = u.source ∧
      ∀ hash, u.baseline = some hash → f.baseline = some hash := by
  rw [edits, List.append_eq_nil_iff]
  refine and_congr ?_ ?_
  · split
    · next h => exact iff_of_false (by simp) h
    · next h => exact iff_of_true rfl (not_not.1 h)
  · cases u.baseline with
    | none => simp [hashEdits]
    | some hash => simp [hashEdits]

/-! ### The length -/

/-- The bytes of two texts are added. -/
theorem utf8Len_append (s t : Str) : utf8Len (s ++ t) = utf8Len s + utf8Len t := by
  rw [utf8Len, encode_append, List.length_append, utf8Len, utf8Len]

/-- A range and what stands behind it are what stands from its start on. -/
theorem span_append_drop {start stop : Nat} (h : start ≤ stop) :
    span source start stop ++ source.drop stop = source.drop start := by
  have hdrop : source.drop stop = (source.drop start).drop (stop - start) := by
    rw [List.drop_drop, Nat.add_sub_cancel' h]
  rw [hdrop]
  exact List.take_append_drop _ _

/-- What is left of the text behind `cursor`, up to the edit, in it and behind it. -/
theorem utf8Len_drop {edit : TextEdit} (hstart : cursor ≤ edit.start)
    (hstop : edit.start ≤ edit.stop) : utf8Len (source.drop cursor) =
      utf8Len (span source cursor edit.start) + utf8Len (span source edit.start edit.stop) +
        utf8Len (source.drop edit.stop) := by
  rw [← span_append_drop hstart, ← span_append_drop hstop, utf8Len_append, utf8Len_append,
    Nat.add_assoc]

/-- One round of the length: nothing is subtracted that is not there. -/
theorem editLength_eq_ok {edit : TextEdit} (hstart : cursor ≤ edit.start)
    (hstop : edit.start ≤ edit.stop) {written n : Nat}
    (h : editLength source (written + utf8Len (source.drop cursor)) edit = .ok n) :
    n = written + utf8Len (span source cursor edit.start) + utf8Len edit.replacement +
      utf8Len (source.drop edit.stop) := by
  rw [editLength, okOr_eq_ok, Option.bind_eq_some_iff] at h
  obtain ⟨m, hm, hn⟩ := h
  rw [checkedSub_eq_some] at hm
  rw [checkedAdd_eq_some] at hn
  have := @utf8Len_drop source cursor edit hstart hstop
  omega

/-- The planned length is the one of the text. The induction is on the edits. Each takes its old
text from the length and adds its new one. -/
theorem foldlM_editLength (h : Forward source cursor edits) {written n : Nat}
    (hfold : edits.foldlM (editLength source) (written + utf8Len (source.drop cursor)) = .ok n) :
    n = written + utf8Len (applyEdits source cursor edits) := by
  induction edits generalizing cursor written with
  | nil => exact (Except.pure_eq_ok.1 hfold).symm
  | cons edit edits ih =>
    obtain ⟨h1, h2, hrest⟩ := h
    rw [List.foldlM_cons, Except.bind_eq_ok] at hfold
    obtain ⟨m, hm, hfold⟩ := hfold
    rw [editLength_eq_ok h1 h2 hm] at hfold
    rw [ih hrest hfold, applyEdits, utf8Len_append, utf8Len_append]
    omega

/-- An edit replaces no more than the length so far. So the length in bytes can be counted up and
down without a borrow. -/
theorem utf8Len_span_le {later : List TextEdit} {edit : TextEdit}
    (h : Forward source cursor (edits ++ edit :: later)) {written n : Nat}
    (hfold : edits.foldlM (editLength source) (written + utf8Len (source.drop cursor)) = .ok n) :
    utf8Len (span source edit.start edit.stop) ≤ n := by
  induction edits generalizing cursor written with
  | nil =>
    obtain ⟨h1, h2, -⟩ := h
    have hn := Except.pure_eq_ok.1 hfold
    have := @utf8Len_drop source cursor edit h1 h2
    omega
  | cons edit' edits ih =>
    obtain ⟨h1, h2, hrest⟩ := h
    rw [List.foldlM_cons, Except.bind_eq_ok] at hfold
    obtain ⟨m, hm, hfold⟩ := hfold
    rw [editLength_eq_ok h1 h2 hm] at hfold
    exact ih hrest hfold

end

/-! ## What a batch substitutes -/

section
variable [Sha256]

/-- The source of a fragment under a batch. -/
def FragmentPlace.newSource (source : Str) (updates : List FragmentUpdate) (f : FragmentPlace) :
    Str :=
  match wantedSource updates f.path with
  | some (.replacement replacement) => replacement.value
  | _ => span source f.start f.stop

/-- The text at the place of the hash under a batch. -/
def FragmentPlace.newHash (source : Str) (updates : List FragmentUpdate) (f : FragmentPlace) : Str :=
  match wantedSource updates f.path with
  | none => span source f.hashLocation.range.1 f.hashLocation.range.2
  | some .current => f.hashLocation.storedText (.ofText (span source f.start f.stop))
  | some (.replacement replacement) => f.hashLocation.storedText (.fromSource replacement)

/-- The text from `cursor` on with the sources and hashes of the fragments substituted. -/
def substituted (source : Str) (updates : List FragmentUpdate) : Nat → List FragmentPlace → Str
  | cursor, [] => source.drop cursor
  | cursor, f :: fs =>
    span source cursor f.start ++ f.newSource source updates ++
      span source f.stop f.hashLocation.range.1 ++ f.newHash source updates ++
      substituted source updates f.hashLocation.range.2 fs

/-- The fragment already has what the update requests. -/
def FragmentView.Has (f : FragmentView) : FragmentUpdate → Prop
  | .record _ => f.baseline = some (.ofText f.source)
  | .replace _ source => f.source = source.value ∧ f.baseline = some (.fromSource source)

/-! ### The edits substitute -/

/-- The source that a fragment gets is the one that the batch wants. -/
theorem newSource_eq {source : Str} {updates : List FragmentUpdate} (f : FragmentPlace) :
    f.newSource source updates = ((f.view source).wanted updates).source := by
  unfold FragmentPlace.newSource FragmentView.wanted FragmentView.updated
  simp only [FragmentPlace.view]
  cases wantedSource updates f.path with
  | none => rfl
  | some r => cases r <;> rfl

/-- The edit of a hash, if there is one, gives the text up to the closing line and the line with the
wanted hash. -/
theorem applyEdits_hash {comment source : Str} {updates : List FragmentUpdate} {f : FragmentPlace}
    (h : f.Stored comment source) (hstart : f.stop ≤ f.hashLocation.range.1)
    (hstop : f.hashLocation.range.1 ≤ f.hashLocation.range.2) {edits : List TextEdit}
    (hedits : Behind f.hashLocation.range.2 edits) :
    applyEdits source f.stop
        (f.hashEdits ((f.view source).wanted updates).baseline ++ edits) =
      span source f.stop f.hashLocation.range.1 ++ f.newHash source updates ++
        applyEdits source f.hashLocation.range.2 edits := by
  have hkeep : applyEdits source f.stop edits =
      span source f.stop f.hashLocation.range.1 ++
        span source f.hashLocation.range.1 f.hashLocation.range.2 ++
        applyEdits source f.hashLocation.range.2 edits := by
    rw [applyEdits_skip hstart (hedits.mono hstop), applyEdits_skip hstop hedits, List.append_assoc]
  have hstore : ∀ hash, applyEdits source f.stop (f.hashEdits (some hash) ++ edits) =
      span source f.stop f.hashLocation.range.1 ++ f.hashLocation.storedText hash ++
        applyEdits source f.hashLocation.range.2 edits := by
    intro hash
    unfold FragmentPlace.hashEdits
    dsimp only
    split
    · rfl
    · next heq => rw [List.nil_append, hkeep, h.text (not_not.1 heq)]
  unfold FragmentPlace.newHash FragmentView.wanted
  simp only [FragmentPlace.view]
  cases wantedSource updates f.path with
  | none =>
    -- the stored hash is wanted as it is
    have hnone : f.hashEdits f.baseline = [] := by
      cases hf : f.baseline with
      | none => rfl
      | some hash => simp [FragmentPlace.hashEdits, hf]
    rw [FragmentView.updated, hnone]
    exact hkeep
  | some r =>
    cases r with
    | current => exact hstore _
    | replacement replacement => exact hstore _

/-- The edits of fragments substitute their sources and hashes. Since the places are in order, each
edit is a substitution by itself. -/
theorem applyEdits_substituted {comment source : Str} {updates : List FragmentUpdate} {cursor : Nat}
    {fs : List FragmentPlace} (h : Ordered source cursor fs) (hs : ∀ f ∈ fs, f.Stored comment source) :
    applyEdits source cursor
        (fs.flatMap fun f => f.edits source ((f.view source).wanted updates)) =
      substituted source updates cursor fs := by
  induction fs generalizing cursor with
  | nil => rfl
  | cons f fs ih =>
    obtain ⟨h1, h2, h3, h4, hrest⟩ := h
    have hforward := hrest.forward fun f => (f.view source).wanted updates
    have hhash := @applyEdits_hash _ comment source updates f (hs f List.mem_cons_self) h3 h4 _
      hforward.behind
    have hfirst := (@Forward.hashEdits _ f.stop _ _ ((f.view source).wanted updates).baseline
      hforward h3 h4).behind
    have hsource : (if span source f.start f.stop ≠ ((f.view source).wanted updates).source then
        ((f.view source).wanted updates).source else span source f.start f.stop) =
          f.newSource source updates := by
      rw [newSource_eq]
      split
      · rfl
      · next heq => exact not_not.1 heq
    rw [List.flatMap_cons, FragmentPlace.edits, List.append_assoc,
      applyEdits_edit _ h1 h2 hfirst, hsource, hhash, ih hrest fun f' hf' =>
        hs f' (List.mem_cons_of_mem _ hf'), substituted]
    simp only [List.append_assoc]

/-! ## Every batch -/

/-- A batch makes no edits exactly when the fragments it names have what it requests. This is when
the code gives back the text it was called with. -/
theorem ParsedSource.edits_eq_nil {p : ParsedSource} {updates : List FragmentUpdate}
    (hnodup : (updates.map FragmentUpdate.path).Nodup) :
    p.edits updates = [] ↔ ∀ u ∈ updates, ∀ f ∈ p.view, f.path = u.path → f.Has u := by
  have hone : ∀ f : FragmentView, (f.source = (f.wanted updates).source ∧
      ∀ hash, (f.wanted updates).baseline = some hash → f.baseline = some hash) ↔
        ∀ u ∈ updates, f.path = u.path → f.Has u := by
    intro f
    refine ⟨fun h u hu hpath => ?_, fun h => ?_⟩
    · rw [FragmentView.wanted_of_mem hnodup hu hpath] at h
      cases u with
      | record path => exact h.2 _ rfl
      | replace path source => exact ⟨h.1, h.2 _ rfl⟩
    · by_cases hf : f.path ∈ updates.map FragmentUpdate.path
      · obtain ⟨u, hu, hpath⟩ := List.mem_map.1 hf
        have hhas := h u hu hpath.symm
        rw [FragmentView.wanted_of_mem hnodup hu hpath.symm]
        cases u with
        | record path => exact ⟨rfl, fun hash hhash => by rw [← hhash]; exact hhas⟩
        | replace path source => exact ⟨hhas.1, fun hash hhash => by rw [← hhash]; exact hhas.2⟩
      · rw [FragmentView.wanted_of_not_mem hf]
        exact ⟨rfl, fun _ => id⟩
  unfold ParsedSource.edits
  rw [List.flatMap_eq_nil_iff]
  refine ⟨fun h u hu f hf hpath => ?_, fun h f hf => ?_⟩
  · obtain ⟨f', hf', rfl⟩ := List.mem_map.1 hf
    exact (hone _).1 (FragmentPlace.edits_eq_nil.1 (h f' hf')) u hu hpath
  · exact FragmentPlace.edits_eq_nil.2 ((hone _).2 fun u hu =>
      h u hu _ (List.mem_map_of_mem hf))

/-- What a batch does to a source: `edits` are the changes it collects, `out` is the new text. The
new text has the planned length, and no order of the updates changes it. -/
structure Surgical (kind : Adls.NodeKind) (p : ParsedSource) (updates : List FragmentUpdate)
    (edits : List TextEdit) (out : Cow Str) : Prop where
  /-- Every update names one fragment, and no two updates the same. -/
  addressed : Addressed updates p.view
  ordered : Ordered p.source 0 (p.fragments.map (·.toFragmentPlace))
  stored : ∀ f ∈ p.fragments, f.toFragmentPlace.Stored (markerComment kind) p.source
  text : out.value = substituted p.source updates 0 (p.fragments.map (·.toFragmentPlace))
  forward : Forward p.source 0 edits
  length : edits.foldlM (editLength p.source) (utf8Len p.source) = .ok (utf8Len out.value)
  noUnderflow : ∀ earlier edit later n, edits = earlier ++ edit :: later →
    earlier.foldlM (editLength p.source) (utf8Len p.source) = .ok n →
      utf8Len (span p.source edit.start edit.stop) ≤ n
  anyOrder : ∀ updates', updates'.Perm updates → p.rewrite updates' = .ok out
  /-- The source itself is given back when there is nothing to change. -/
  borrowed : out = .borrowed p.source ↔
    ∀ u ∈ updates, ∀ f ∈ p.view, f.path = u.path → f.Has u
  owned : out ≠ .borrowed p.source → ∃ text, out = .owned text

/-- Rewriting is surgical: whatever a batch requests, the sources and hashes of the fragments it
names are substituted and every other character is kept, in any order of the updates, with the
length planned ahead; the source is given back as it is when it has all that is requested. -/
theorem ParsedSource.rewrite_surgical {kind : Adls.NodeKind} {source : Str} {p : ParsedSource}
    {updates : List FragmentUpdate} {out : Cow Str} (hp : ParsedSource.parse kind source = .ok p)
    (h : p.rewrite updates = .ok out) :
    ∃ requested, updates.foldlM requestUpdate .empty = .ok requested ∧
      Surgical kind p updates
        (p.fragments.flatMap fun f => fragmentEdits (requested.find? f.path) f) out := by
  obtain ⟨rfl, -⟩ := ParsedSource.parse_eq_ok.1 hp
  obtain ⟨hordered, hstored⟩ := ParsedSource.placed hp
  obtain ⟨haddressed, hout⟩ := ParsedSource.rewrite_eq_ok.1 h
  obtain ⟨requested, hrequested⟩ := requestUpdate_ok haddressed.nodup
  obtain ⟨-, hfind⟩ := requestUpdate_eq_ok hrequested
  have hforward := hordered.forward fun f => (f.view p.source).wanted updates
  have htext := @applyEdits_substituted _ _ p.source updates 0 _ hordered (by
    rw [List.forall_mem_map]
    exact hstored)
  rw [List.flatMap_map] at hforward htext
  have hforward : Forward p.source 0 (p.edits updates) := hforward
  have htext : applyEdits p.source 0 (p.edits updates) = _ := htext
  have hvalue : out.value = applyEdits p.source 0 (p.edits updates) := by
    rcases hout with ⟨hnil, rfl⟩ | ⟨-, -, rfl⟩
    · rw [hnil]
      rfl
    · rfl
  have hnil : p.edits updates = [] ↔ out = .borrowed p.source := by
    rcases hout with ⟨hnil, rfl⟩ | ⟨hne, -, rfl⟩
    · exact iff_of_true hnil rfl
    · exact iff_of_false hne (by simp)
  refine ⟨requested, hrequested, ?_⟩
  simp only [hfind, p.flatMap_fragmentEdits]
  refine ⟨haddressed, hordered, hstored, hvalue.trans htext, hforward, ?_, ?_, ?_, ?_, ?_⟩
  · have hfold : ∃ n, (p.edits updates).foldlM (editLength p.source) (utf8Len p.source) = .ok n := by
      rcases hout with ⟨hnil, -⟩ | ⟨-, hn, -⟩
      · exact ⟨_, by rw [hnil]; rfl⟩
      · exact hn
    obtain ⟨n, hn⟩ := hfold
    have hlength := @foldlM_editLength p.source 0 _ hforward 0 n (by simpa using hn)
    rw [hn, hvalue, hlength, Nat.zero_add]
  · intro earlier edit later n hedits hn
    rw [hedits] at hforward
    exact @utf8Len_span_le p.source 0 earlier later edit hforward 0 n (by simpa using hn)
  · intro updates' hperm
    have hwanted := wantedSource_perm haddressed.nodup hperm
    refine ParsedSource.rewrite_congr h ⟨?_, fun u hu => ?_⟩ fun f _ => ?_
    · exact (hperm.map FragmentUpdate.path).nodup_iff.2 haddressed.nodup
    · exact haddressed.unique u (hperm.mem_iff.1 hu)
    · rw [FragmentView.wanted, FragmentView.wanted, hwanted]
  · rw [← hnil]
    exact ParsedSource.edits_eq_nil haddressed.nodup
  · intro hne
    rcases hout with ⟨-, rfl⟩ | ⟨-, -, rfl⟩
    · exact absurd rfl hne
    · exact ⟨_, rfl⟩

end

/-- A fragment without source and hash is given both. The source goes between the markers, and the
hash into the closing one. -/
theorem rewrite_surgical_behind_lf : ∃ (p : ParsedSource) (out : Cow Str),
    ParsedSource.parse .dsp (emptyFragment ['\n']) = .ok p ∧
    @ParsedSource.rewrite lfDigest p [.replace samplePath lfSource] = .ok out ∧
    ∃ requested, [FragmentUpdate.replace samplePath lfSource].foldlM requestUpdate .empty =
        .ok requested ∧
      @Surgical lfDigest .dsp p [.replace samplePath lfSource]
        (p.fragments.flatMap fun f => @fragmentEdits lfDigest _ (requested.find? f.path) f) out := by
  refine ⟨_, _, rfl, rfl, ?_⟩
  exact @ParsedSource.rewrite_surgical lfDigest .dsp (emptyFragment ['\n']) _ _ _ rfl rfl

end Zwirn.Fragment
