import Zwirn.Adls.Accepts

/-!
# Rewriting source fields

`Document.rewrite` pads the buffer, appends one string for each changed source and patches the slot
that refers to it. This module has the code and what each of its parts computes: the planned size
(`planRewriteSize_eq_ok`), the requested text of every source (`request_eq`, `request_eq_ok`), the
changes that remain (`changes_eq_ok`) and the rewritten buffer as a fold over these changes
(`Document.rewrite_eq_ok`). The code is in `src/adls.rs`.
-/

namespace Zwirn.Adls

open Lib

/-- The greatest size of a rewritten buffer. -/
def maxRewrittenAdlsSize : Nat := 2 ^ 31

/-- The bytes that bring a size to a multiple of four. -/
def padding (size : Nat) : Nat := (u32Size - size % u32Size) % u32Size

/-- The size after one more string of `replacementLength` bytes, if it is within the limit. -/
def planStep (size replacementLength : Nat) : Except Error Nat :=
  okOr (((((checkedAdd size (padding size)).bind fun size => checkedAdd size u32Size).bind
    fun size => checkedAdd size replacementLength).bind fun size => checkedAdd size 1).filter
      fun size => size ≤ maxRewrittenAdlsSize) .sizeLimitExceeded

/-- The size of a buffer with strings of the given lengths appended in turn. It fails as soon as a
size on the way exceeds the limit. -/
def planRewriteSize (initialSize : Nat) (replacementLengths : List Nat) : Except Error Nat := do
  require (¬ initialSize > maxRewrittenAdlsSize) .sizeLimitExceeded
  replacementLengths.foldlM planStep initialSize

/-- A source field whose text really changes. -/
structure Change where
  fieldLocation : Nat
  replacement : Str
  replacementLength : Nat
deriving DecidableEq, Repr

namespace Document

/-- Enters one replacement under the index of its source. The handle has to be one of this document,
and may have no replacement yet. -/
def requestOne (doc : Document) (requested : List (Option Str)) (r : NodeHandle × Str) :
    Except Error (List (Option Str)) :=
  match binarySearchBy (fun source : SourceNode => compare source.handle.index r.1.index)
      doc.sources with
  | .error _ => .error (.unknownNodeHandle r.1)
  | .ok sourceIndex => do
    require (doc.sources[sourceIndex]?.map (·.handle) = some r.1) (.unknownNodeHandle r.1)
    require (requested[sourceIndex]? = some none) (.duplicateReplacement r.1)
    pure (requested.set sourceIndex (some r.2))

/-- The requested text of every source. -/
def request (doc : Document) (replacements : List (NodeHandle × Str)) :
    Except Error (List (Option Str)) :=
  replacements.foldlM doc.requestOne (List.replicate doc.sources.length none)

/-- Keeps a requested text that differs from the source it replaces. Its length is checked here,
before anything is built. -/
def changeOne (changes : List Change) (e : Option Str × SourceNode × Nat) :
    Except Error (List Change) :=
  match e with
  | (none, _, _) => pure changes
  | (some replacement, source, fieldLocation) =>
    if replacement = source.source then pure changes
    else do
      let replacementLength ← okOr (u32TryFrom (utf8Len replacement)) .sizeLimitExceeded
      pure (changes ++ [⟨fieldLocation, replacement, replacementLength⟩])

/-- The changes of a batch, in source order. -/
def changes (doc : Document) (requested : List (Option Str)) : Except Error (List Change) :=
  (requested.zip (doc.sources.zip doc.sourceFieldLocations)).foldlM changeOne []

end Document

/-- Appends one string and patches the slot that refers to it. The string stands at the next
multiple of four, behind its length and in front of a zero, and the offset of the slot counts from
the slot itself. -/
def appendChange (output : Bytes) (c : Change) : Except Error Bytes := do
  let output := output ++ List.replicate (padding output.length) 0
  let stringLocation := output.length
  let relativeOffset ← okOr ((checkedSub stringLocation c.fieldLocation).bind u32TryFrom)
    .sizeLimitExceeded
  let output := output ++ leBytes 4 c.replacementLength ++ encode c.replacement ++ [0]
  pure (patch output c.fieldLocation (leBytes 4 relativeOffset))

/-- Replaces a batch of source fields. `validationId` is the identity of the document that is
parsed to validate the result. -/
def Document.rewrite (doc : Document) (validationId : Nat)
    (replacements : List (NodeHandle × Str)) : Except Error (Cow Bytes) :=
  if replacements.isEmpty then pure (.borrowed doc.bytes)
  else do
    let requested ← doc.request replacements
    let changes ← doc.changes requested
    if changes.isEmpty then pure (.borrowed doc.bytes)
    else do
      let _plannedSize ←
        planRewriteSize doc.bytes.length (changes.map fun c => utf8Len c.replacement)
      let output ← changes.foldlM appendChange doc.bytes
      let _ ← Document.parse validationId output
      pure (.owned output)

/-! ## The planned size -/

/-- The exact size after one more string. -/
def paddedSize (size replacementLength : Nat) : Nat :=
  size + padding size + u32Size + replacementLength + 1

/-- The exact size of a buffer with strings of the given lengths appended in turn. -/
def rewrittenSize (initialSize : Nat) (replacementLengths : List Nat) : Nat :=
  replacementLengths.foldl paddedSize initialSize

/-- A step of the planning succeeds exactly if the size that it gets to is within the limit. -/
theorem planStep_eq_ok {size len n : Nat} :
    planStep size len = .ok n ↔ n = paddedSize size len ∧ n ≤ maxRewrittenAdlsSize := by
  simp only [planStep, okOr_eq_ok, Option.filter_eq_some_iff, Option.bind_eq_some_iff,
    checkedAdd_eq_some, decide_eq_true_eq]
  constructor
  · rintro ⟨⟨_, ⟨_, ⟨_, ⟨_, rfl⟩, _, rfl⟩, _, rfl⟩, _, rfl⟩, hle⟩
    exact ⟨rfl, hle⟩
  · rintro ⟨rfl, hle⟩
    have hbound : maxRewrittenAdlsSize < usizeBound := by decide
    unfold paddedSize at hle ⊢
    exact ⟨⟨_, ⟨_, ⟨_, ⟨by omega, rfl⟩, by omega, rfl⟩, by omega, rfl⟩, by omega, rfl⟩, hle⟩

/-- One more string makes the buffer no shorter. -/
theorem le_paddedSize (size len : Nat) : size ≤ paddedSize size len := by
  unfold paddedSize; omega

/-- More strings make the buffer no shorter. -/
theorem le_rewrittenSize (size : Nat) (lens : List Nat) : size ≤ rewrittenSize size lens := by
  induction lens generalizing size with
  | nil => exact Nat.le_refl _
  | cons len lens ih => exact (le_paddedSize size len).trans (ih _)

/-- Planning returns the exact size when it is within the limit, and fails otherwise. The induction
is on the lengths. A sum that overflows is above the limit at some length, so the checks on the way
are those at the end. -/
theorem planRewriteSize_eq_ok {size n : Nat} {lens : List Nat} :
    planRewriteSize size lens = .ok n ↔
      n = rewrittenSize size lens ∧ n ≤ maxRewrittenAdlsSize := by
  simp only [planRewriteSize, Except.bind_eq_ok, require_eq_ok, not_lt, gt_iff_lt,
    exists_const_iff]
  induction lens generalizing size with
  | nil =>
    simp only [List.foldlM_nil, Except.pure_eq_ok, rewrittenSize, List.foldl_nil]
    constructor
    · rintro ⟨-, h, rfl⟩; exact ⟨rfl, h⟩
    · rintro ⟨rfl, h⟩; exact ⟨⟨()⟩, h, rfl⟩
  | cons len lens ih =>
    simp only [List.foldlM_cons, Except.bind_eq_ok, planStep_eq_ok]
    constructor
    · rintro ⟨hu, -, _, ⟨rfl, hle⟩, hrest⟩
      exact ih.1 ⟨hu, hle, hrest⟩
    · rintro ⟨rfl, hle⟩
      obtain ⟨hu, h1, h2⟩ := ih.2 ⟨rfl, hle⟩
      exact ⟨hu, (le_paddedSize size len).trans h1, _, ⟨rfl, h1⟩, h2⟩

/-! ## The requested texts -/

/-- The text a batch wants for a source. -/
def wanted (replacements : List (NodeHandle × Str)) (n : SourceNode) : Option Str :=
  replacements.lookup n.handle

/-- What a handle looks up is one of the entries. -/
theorem mem_of_lookup {rs : List (NodeHandle × Str)} {h : NodeHandle} {t : Str}
    (hl : rs.lookup h = some t) : (h, t) ∈ rs := by
  obtain ⟨l₁, l₂, rfl, -⟩ := List.lookup_eq_some_iff.1 hl
  simp

/-- With pairwise different handles an entry is what its handle looks up. -/
theorem lookup_of_mem {rs : List (NodeHandle × Str)} (hnodup : (rs.map (·.1)).Nodup)
    {h : NodeHandle} {t : Str} (hm : (h, t) ∈ rs) : rs.lookup h = some t := by
  obtain ⟨l₁, l₂, rfl⟩ := List.append_of_mem hm
  refine List.lookup_eq_some_iff.2 ⟨l₁, l₂, rfl, fun e he => ?_⟩
  rw [List.map_append, List.nodup_append] at hnodup
  have := hnodup.2.2 _ (List.mem_map_of_mem he) h (by simp)
  simpa using Ne.symm this

namespace Document

/-- The sources stand in the order of their indexes. -/
def Ordered (doc : Document) : Prop :=
  doc.sources.Pairwise fun a b => a.handle.index < b.handle.index

section
variable {doc : Document} {h : NodeHandle}

/-- Two sources with one index are the same source. -/
theorem Ordered.index_inj (ho : doc.Ordered) {a b : SourceNode} {i j : Nat}
    (ha : doc.sources[i]? = some a) (hb : doc.sources[j]? = some b)
    (hab : a.handle.index = b.handle.index) : i = j := by
  obtain ⟨hi, rfl⟩ := List.getElem?_eq_some_iff.1 ha
  obtain ⟨hj, rfl⟩ := List.getElem?_eq_some_iff.1 hb
  rcases Nat.lt_trichotomy i j with hlt | rfl | hlt
  · have := List.pairwise_iff_getElem.1 ho i j hi hj hlt
    omega
  · rfl
  · have := List.pairwise_iff_getElem.1 ho j i hj hi hlt
    omega

/-- The search over ordered sources finds the source a handle belongs to. The indexes increase,
which is what the halving of the search relies on. -/
theorem Ordered.search (ho : doc.Ordered) (hmem : h ∈ doc.sources.map (·.handle)) :
    ∃ i n, binarySearchBy (fun source : SourceNode => compare source.handle.index h.index)
      doc.sources = .ok i ∧ doc.sources[i]? = some n ∧ n.handle = h := by
  obtain ⟨n, hn, rfl⟩ := List.mem_map.1 hmem
  have hasc : Ascending (fun source : SourceNode => compare source.handle.index n.handle.index)
      doc.sources := by
    refine ho.imp fun hlt => ⟨fun hgt => ?_, fun hl => ?_⟩
    · exact compare_gt_iff_gt.2 (Nat.lt_trans (compare_gt_iff_gt.1 hgt) hlt)
    · exact compare_lt_iff_lt.2 (Nat.lt_trans hlt (compare_lt_iff_lt.1 hl))
  obtain ⟨i, hi⟩ := binarySearchBy_isOk hasc hn (compare_eq_iff_eq.2 rfl)
  obtain ⟨n', hget, heq⟩ := binarySearchBy_ok hi
  obtain ⟨j, hj⟩ := List.getElem?_of_mem hn
  obtain rfl := ho.index_inj hget hj (compare_eq_iff_eq.1 heq)
  rw [hget] at hj
  exact ⟨i, n', hi, hget, by rw [Option.some.inj hj]⟩

/-- Pairwise different handles of the document enter each its own text. The induction adds one
replacement behind the others, whose slot is still free because its handle is different from
theirs. -/
theorem request_eq (ho : doc.Ordered) {replacements : List (NodeHandle × Str)}
    (hnodup : (replacements.map (·.1)).Nodup)
    (hfrom : ∀ r ∈ replacements, r.1 ∈ doc.sources.map (·.handle)) :
    doc.request replacements = .ok (doc.sources.map (wanted replacements)) := by
  unfold request wanted
  induction replacements using List.reverseRecOn with
  | nil => simp [List.map_const', pure, Except.pure]
  | append_singleton rs r ih =>
    obtain ⟨h, t⟩ := r
    rw [List.map_append, List.nodup_append] at hnodup
    have hnew : rs.lookup h = none := List.lookup_eq_none_iff.2 fun e he => by
      simpa using Ne.symm (hnodup.2.2 _ (List.mem_map_of_mem he) h (by simp))
    have ih := ih hnodup.1 fun e he => hfrom e (List.mem_append_left _ he)
    obtain ⟨i, n, hsearch, hget, hh⟩ := ho.search (hfrom (h, t) (by simp))
    rw [foldlM_append_eq_ok]
    refine ⟨_, ih, ?_⟩
    simp only [List.foldlM_cons, List.foldlM_nil, bind_pure, requestOne, hsearch]
    simp only [Except.bind_eq_ok, require_eq_ok, Except.pure_eq_ok, hget, List.getElem?_map,
      Option.map_some, hh, hnew]
    refine ⟨(), trivial, (), trivial, List.ext_getElem? fun j => ?_⟩
    rw [List.getElem?_set, List.getElem?_map]
    split
    · next hij =>
      subst hij
      have hlt := (List.getElem?_eq_some_iff.1 hget).1
      rw [List.getElem?_map, hget]
      simp [hlt, hh, List.lookup_append, hnew]
    · next hij =>
      rw [List.getElem?_map]
      cases hj : doc.sources[j]? with
      | none => rfl
      | some n' =>
        have hne : n'.handle ≠ h := fun he =>
          hij (ho.index_inj hget hj (by rw [hh, he]))
        simp [List.lookup_append, List.lookup_cons, beq_eq_false_iff_ne.2 hne]

/-- A batch is entered exactly when its handles are pairwise different and of the document. The code
finds a second replacement of a handle by the slot that is taken, and a foreign handle by its
identity or because the search finds nothing. -/
theorem request_eq_ok (ho : doc.Ordered) {replacements : List (NodeHandle × Str)}
    {requested : List (Option Str)} : doc.request replacements = .ok requested ↔
      (replacements.map (·.1)).Nodup ∧ (∀ r ∈ replacements, r.1 ∈ doc.sources.map (·.handle)) ∧
        requested = doc.sources.map (wanted replacements) := by
  refine ⟨fun hok => ?_, fun h => by rw [h.2.2]; exact request_eq ho h.1 h.2.1⟩
  have hentered : (replacements.map (·.1)).Nodup ∧
      ∀ r ∈ replacements, r.1 ∈ doc.sources.map (·.handle) := by
    unfold request at hok
    induction replacements using List.reverseRecOn generalizing requested with
    | nil => simp
    | append_singleton rs r ih =>
      rw [foldlM_append_eq_ok] at hok
      obtain ⟨requested₁, hrs, hr⟩ := hok
      obtain ⟨hnodup, hfrom⟩ := ih hrs
      obtain rfl : doc.sources.map (wanted rs) = requested₁ :=
        Except.ok.inj ((request_eq ho hnodup hfrom).symm.trans hrs)
      simp only [List.foldlM_cons, List.foldlM_nil, bind_pure, requestOne] at hr
      split at hr
      · cases hr
      · next i hsearch =>
        simp only [Except.bind_eq_ok, require_eq_ok, Option.map_eq_some_iff, List.getElem?_map]
          at hr
        obtain ⟨-, ⟨n, hn, hhandle⟩, -, ⟨n', hn', hfree⟩, -⟩ := hr
        obtain rfl := Option.some.inj (hn.symm.trans hn')
        -- the handle is of a source, and none of those in front
        have hmem : r.1 ∈ doc.sources.map (·.handle) :=
          List.mem_map.2 ⟨n, List.mem_of_getElem? hn, hhandle⟩
        have hnew : r.1 ∉ rs.map (·.1) := by
          rintro hold
          obtain ⟨e, he, heq⟩ := List.mem_map.1 hold
          have := List.lookup_eq_none_iff.1 hfree e he
          rw [hhandle, heq] at this
          simp at this
        refine ⟨?_, ?_⟩
        · rw [List.map_append, List.map_singleton, List.nodup_append]
          refine ⟨hnodup, List.nodup_singleton _, fun a ha b hb hab => ?_⟩
          rw [List.mem_singleton.1 hb] at hab
          exact hnew (hab ▸ ha)
        · intro e he
          rcases List.mem_append.1 he with he | he
          · exact hfrom e he
          · rw [List.mem_singleton.1 he]
            exact hmem
  exact ⟨hentered.1, hentered.2, Except.ok.inj (hok.symm.trans (request_eq ho hentered.1 hentered.2))⟩

end

/-! ## The changes -/

/-- The change a source with a requested text amounts to, if its text differs. -/
def changeOf (want : SourceNode → Option Str) (n : SourceNode) (fieldLocation : Nat) :
    Option Change :=
  match want n with
  | none => none
  | some t => if t = n.source then none else some ⟨fieldLocation, t, utf8Len t⟩

/-- A source is changed exactly if a text is wanted that differs from the one that it has. -/
theorem changeOf_eq_some {want : SourceNode → Option Str} {n : SourceNode} {l : Nat}
    {c : Change} : changeOf want n l = some c ↔
      ∃ t, want n = some t ∧ t ≠ n.source ∧ c = ⟨l, t, utf8Len t⟩ := by
  unfold changeOf
  cases hw : want n with
  | none => simp
  | some t => by_cases he : t = n.source <;> simp [he, eq_comm]

/-- The changes of a batch that wants the given texts. -/
def wantedChanges (doc : Document) (want : SourceNode → Option Str) : List Change :=
  (doc.sources.zip doc.sourceFieldLocations).filterMap fun e => changeOf want e.1 e.2

/-- The loop over the sources keeps exactly the changes of the single sources, in their order, and
fails exactly if one of the texts is too long for a 32-bit length. -/
theorem foldlM_changeOne_eq_ok {want : SourceNode → Option Str} {es : List (SourceNode × Nat)}
    {cs : List Change} :
    (es.map fun e => (want e.1, e)).foldlM changeOne [] = .ok cs ↔
      cs = (es.filterMap fun e => changeOf want e.1 e.2) ∧
        ∀ c ∈ cs, utf8Len c.replacement < u32Bound := by
  induction es using List.reverseRecOn generalizing cs with
  | nil =>
    simp only [List.map_nil, List.foldlM_nil, Except.pure_eq_ok, List.filterMap_nil]
    constructor
    · rintro rfl; simp
    · rintro ⟨rfl, -⟩; rfl
  | append_singleton es e ih =>
    obtain ⟨n, l⟩ := e
    rw [List.map_append, foldlM_append_eq_ok]
    simp only [ih, List.map_cons, List.map_nil, List.foldlM_cons, List.foldlM_nil, bind_pure,
      List.filterMap_append, List.filterMap_cons, List.filterMap_nil]
    cases hw : want n with
    | none =>
      have hc : changeOf want n l = none := by simp [changeOf, hw]
      simp only [hc, changeOne, Except.pure_eq_ok, List.append_nil]
      constructor
      · rintro ⟨_, h, rfl⟩; exact h
      · intro h; exact ⟨cs, h, rfl⟩
    | some t =>
      by_cases he : t = n.source
      · have hc : changeOf want n l = none := by simp [changeOf, hw, he]
        simp only [hc, changeOne, if_pos he, Except.pure_eq_ok, List.append_nil]
        constructor
        · rintro ⟨_, h, rfl⟩; exact h
        · intro h; exact ⟨cs, h, rfl⟩
      · rw [changeOf_eq_some.2 ⟨t, hw, he, rfl⟩]
        simp only [changeOne, if_neg he, Except.bind_eq_ok, okOr_eq_ok, u32TryFrom_eq_some,
          Except.pure_eq_ok]
        constructor
        · rintro ⟨_, ⟨rfl, hfit⟩, _, ⟨hlt, rfl⟩, rfl⟩
          refine ⟨rfl, fun c hc => ?_⟩
          rcases List.mem_append.1 hc with hc | hc
          · exact hfit c hc
          · rw [List.mem_singleton.1 hc]; exact hlt
        · rintro ⟨rfl, hfit⟩
          exact ⟨_, ⟨rfl, fun c hc => hfit c (List.mem_append_left _ hc)⟩, _,
            ⟨hfit ⟨l, t, utf8Len t⟩ (by simp), rfl⟩, rfl⟩

/-- The changes of a batch are those of the single sources; each text fits a 32-bit length. The
requested texts, the sources and their slots are gone through side by side. -/
theorem changes_eq_ok {doc : Document} {want : SourceNode → Option Str} {cs : List Change} :
    doc.changes (doc.sources.map want) = .ok cs ↔
      cs = doc.wantedChanges want ∧ ∀ c ∈ cs, utf8Len c.replacement < u32Bound := by
  have hzip : (doc.sources.map want).zip (doc.sources.zip doc.sourceFieldLocations) =
      (doc.sources.zip doc.sourceFieldLocations).map fun e => (want e.1, e) := by
    generalize doc.sourceFieldLocations = ls
    induction doc.sources generalizing ls with
    | nil => rfl
    | cons n ns ih => cases ls with
      | nil => rfl
      | cons l ls => simp [ih]
  rw [changes, hzip, foldlM_changeOne_eq_ok, wantedChanges]

end Document

/-- Each string that was appended is shorter than the buffer. -/
theorem length_le_rewrittenSize {lens : List Nat} (size : Nat) {len : Nat} (h : len ∈ lens) :
    len < rewrittenSize size lens := by
  induction lens generalizing size with
  | nil => cases h
  | cons l lens ih =>
    rcases List.mem_cons.1 h with rfl | h
    · refine Nat.lt_of_lt_of_le ?_ (le_rewrittenSize (paddedSize size len) lens)
      unfold paddedSize; omega
    · exact ih _ h

/-! ## The whole rewrite -/

/-- The planned size of a batch. -/
def Document.plannedSize (doc : Document) (want : SourceNode → Option Str) : Nat :=
  rewrittenSize doc.bytes.length ((doc.wantedChanges want).map fun c => utf8Len c.replacement)

/-- A rewrite without changes returns the buffer itself; any other one returns the buffer with all
changes applied, if the planned size is within the limit and the result parses. -/
theorem Document.rewrite_eq_ok {doc : Document} (ho : doc.Ordered) {d : Nat} {out : Cow Bytes}
    {replacements : List (NodeHandle × Str)} (hnodup : (replacements.map (·.1)).Nodup)
    (hfrom : ∀ r ∈ replacements, r.1 ∈ doc.sources.map (·.handle)) :
    doc.rewrite d replacements = .ok out ↔
      (doc.wantedChanges (wanted replacements) = [] ∧ out = .borrowed doc.bytes) ∨
      (doc.wantedChanges (wanted replacements) ≠ [] ∧
        doc.plannedSize (wanted replacements) ≤ maxRewrittenAdlsSize ∧
        ∃ output doc', (doc.wantedChanges (wanted replacements)).foldlM appendChange doc.bytes =
            .ok output ∧
          Document.parse d output = .ok doc' ∧ out = .owned output) := by
  have hfit : doc.plannedSize (wanted replacements) ≤ maxRewrittenAdlsSize →
      ∀ c ∈ doc.wantedChanges (wanted replacements), utf8Len c.replacement < u32Bound := by
    intro hle c hc
    have hmax : maxRewrittenAdlsSize < u32Bound := by decide
    have := length_le_rewrittenSize doc.bytes.length
      (List.mem_map_of_mem (f := fun c : Change => utf8Len c.replacement) hc)
    unfold Document.plannedSize at hle
    omega
  unfold Document.rewrite
  split
  · next hempty =>
    have hnil : doc.wantedChanges (wanted replacements) = [] := by
      refine List.filterMap_eq_nil_iff.2 fun e _ => ?_
      simp [Document.changeOf, wanted, List.isEmpty_iff.1 hempty]
    simp only [Except.pure_eq_ok, hnil, true_and, ne_eq, not_true_eq_false, false_and, or_false]
    exact eq_comm
  · simp only [Document.request_eq ho hnodup hfrom, Except.bind_eq_ok, Except.ok.injEq,
      exists_eq_left', Document.changes_eq_ok]
    constructor
    · rintro ⟨_, ⟨rfl, hlt⟩, h⟩
      split at h
      · next hnil => exact .inl ⟨List.isEmpty_iff.1 hnil, (Except.pure_eq_ok.1 h).symm⟩
      · next hne =>
        simp only [Except.bind_eq_ok, planRewriteSize_eq_ok, Except.pure_eq_ok] at h
        obtain ⟨_, ⟨rfl, hle⟩, output, hfold, doc', hparse, rfl⟩ := h
        exact .inr ⟨fun hc => hne (List.isEmpty_iff.2 hc), hle, output, doc', hfold, hparse, rfl⟩
    · rintro (⟨hnil, rfl⟩ | ⟨hne, hle, output, doc', hfold, hparse, rfl⟩)
      · exact ⟨_, ⟨rfl, by rw [hnil]; simp⟩,
          by rw [if_pos (List.isEmpty_iff.2 hnil)]; rfl⟩
      · refine ⟨_, ⟨rfl, hfit hle⟩, ?_⟩
        rw [if_neg fun hc => hne (List.isEmpty_iff.1 hc)]
        simp only [Except.bind_eq_ok, planRewriteSize_eq_ok, Except.pure_eq_ok]
        exact ⟨_, ⟨rfl, hle⟩, output, hfold, doc', hparse, rfl⟩

end Zwirn.Adls
