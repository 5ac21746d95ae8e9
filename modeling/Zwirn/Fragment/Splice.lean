import Zwirn.Fragment.ReadBack

/-!
# Two batches

A batch that is applied to a rewritten source does what both batches do at once, when no fragment
is named by both of them (`ParsedSource.rewritten_twice`): the parser finds the sections that the
first batch has left, and a section that the first one does not name it finds as it was.
-/

namespace Zwirn.Fragment

open Lib

/-! ## Sections as they stand -/

/-- The hash of a closing line has one place. The scanner finds one, and both are what it finds. -/
theorem ClosingContent.location_eq {comment content : Str} {path path' : FragmentPath}
    {baseline baseline' : Option BaselineHash} {location location' : HashLocation}
    (hc : Edge comment) (h : ClosingContent comment path content baseline location)
    (h' : ClosingContent comment path' content baseline' location') : location' = location := by
  have hread := (@parseMarker_closing comment ⟨0, 0, 0, content⟩ path hc _ _).2 ⟨_, h, rfl⟩
  rw [(parseMarker_closing hc).2 ⟨_, h', rfl⟩] at hread
  simp only [Except.ok.injEq, Option.some.injEq, Marker.closing.injEq] at hread
  have hshift : ∀ location : HashLocation, location.shift 0 = location := by
    intro location
    cases location <;> simp [HashLocation.shift]
  have heq := hread.2.2
  rwa [hshift, hshift] at heq

namespace FragmentSection

/-- Storing the hash that a closing line has changes nothing. -/
theorem closingWith_self (s : FragmentSection) : s.closingWith s.baseline = s.closing := by
  unfold closingWith
  cases s.baseline with
  | none => rfl
  | some hash => exact if_neg (by simp)

/-- A section whose fragment is kept has the text it has. -/
theorem updatedText_self (s : FragmentSection) : s.updatedText s.fragment = joinLines s.lines := by
  rw [joinLines_lines, updatedText, fragment, closingWith_self]

/-- A section whose fragment is kept is read as it is. -/
theorem updated_self {s : FragmentSection} (hv : Valid s.lines) : s.updated s.fragment = s := by
  have hmerges : ¬ s.Merges s.fragment.source := not_merges_body hv
  have hbody : Valid s.body := (valid_append.1 (valid_cons.1 (valid_append.1 hv).2.1).2.1).1
  have hsplit : splitLines (s.readSource s.fragment.source) = s.body := by
    rw [readSource, if_neg hmerges]
    exact splitLines_eq_iff.2 ⟨hbody, rfl⟩
  rw [updated, hsplit, readOpening, if_neg hmerges, fragment, closingWith_self]

/-- Sections with the same lines have the same text, whatever their fragment is turned into. The
place of the hash follows from the closing line. -/
theorem SameLines.updatedText_eq {comment : Str} (hc : Edge comment) {s s' : FragmentSection}
    (h : s'.SameLines s) (hs : s.Ok comment) (hs' : s'.Ok comment) (u : FragmentView) :
    s'.updatedText u = s.updatedText u := by
  have hlocation : s'.location = s.location := by
    have hclosing := hs'.closing
    rw [h.closing] at hclosing
    exact hs.closing.location_eq hc hclosing
  have hclosing : s'.closingWith u.baseline = s.closingWith u.baseline := by
    unfold closingWith
    cases u.baseline with
    | none => exact h.closing
    | some hash => simp only [h.closing, h.baseline, hlocation]
  rw [updatedText, updatedText, h.gap, h.opening, hclosing]

end FragmentSection

/-! ## Both batches -/

section
variable [Sha256]

/-- What is made of a fragment by two batches is made of it by one of them, and the other one does
not name it. -/
def Splits (updates updates₁ updates₂ : List FragmentUpdate) (f : FragmentView) : Prop :=
  f.path ∉ updates₂.map FragmentUpdate.path ∧ f.wanted updates = f.wanted updates₁ ∨
    f.path ∉ updates₁.map FragmentUpdate.path ∧ f.wanted updates = f.wanted updates₂

/-- A section that is updated twice, and read in between, is updated with both batches. Each
fragment is updated by one of the two batches only. -/
theorem FragmentSection.SameLines.updatedText_twice {comment : Str} (hc : Edge comment)
    {s s' : FragmentSection} {updates updates₁ updates₂ : List FragmentUpdate}
    (h : s'.SameLines (s.updated (s.fragment.wanted updates₁))) (hs : s.Ok comment)
    (hs' : s'.Ok comment) (hv : Valid s.lines) (hsplits : Splits updates updates₁ updates₂ s.fragment) :
    s'.updatedText (s'.fragment.wanted updates₂) = s.updatedText (s.fragment.wanted updates) := by
  rcases hsplits with ⟨hnot, hwanted⟩ | ⟨hnot, hwanted⟩
  · -- the second batch keeps what the first one has left
    have hpath : s'.fragment.path = s.fragment.path := h.path
    rw [← hpath] at hnot
    rw [FragmentView.wanted_of_not_mem hnot, updatedText_self, hwanted, ← joinLines_updated,
      lines, lines, h.gap, h.opening, h.body, h.closing]
  · -- the second batch finds what the first one has found
    rw [FragmentView.wanted_of_not_mem hnot, updated_self hv] at h
    rw [h.fragment_eq, hwanted]
    exact h.updatedText_eq hc hs hs' _

/-- A batch that is applied to what another one has left makes the text that both make at once. The
two batches are about different fragments, so no fragment is changed twice. -/
theorem ParsedSource.rewritten_twice {kind : Adls.NodeKind} {p p' : ParsedSource}
    {ss ss' : List FragmentSection} {tail tail' : List Line} (hs : p.Sections kind ss tail)
    (hs' : p'.Sections kind ss' tail') {updates updates₁ updates₂ : List FragmentUpdate}
    (h : p'.source =
      (ss.flatMap fun s => s.updatedText (s.fragment.wanted updates₁)) ++ joinLines tail)
    (hnodup : (p'.view.map FragmentView.path).Nodup)
    (hsplits : ∀ f ∈ p.view, Splits updates updates₁ updates₂ f) :
    (ss'.flatMap fun s => s.updatedText (s.fragment.wanted updates₂)) ++ joinLines tail' =
      (ss.flatMap fun s => s.updatedText (s.fragment.wanted updates)) ++ joinLines tail := by
  obtain ⟨haligned, rfl⟩ := ParsedSource.sections_updated hs hs' h hnodup
  have hok := (List.forall₂_and_left _ _).2 ⟨hs'.ok, haligned⟩
  have htexts : List.Forall₂ (fun s' s => s'.updatedText (s'.fragment.wanted updates₂) =
      s.updatedText (s.fragment.wanted updates)) ss' ss := by
    refine forall₂_of_mem_right hok fun s' s hmem hboth => ?_
    refine hboth.2.updatedText_twice (markerComment_edge kind) (hs.ok s hmem) hboth.1
      (hs.valid hmem) (hsplits _ ?_)
    rw [hs.view_eq]
    exact List.mem_map_of_mem hmem
  have hmap := map_eq_of_forall₂ htexts fun _ _ heq => heq
  rw [List.flatMap_def, List.flatMap_def, hmap]

end

end Zwirn.Fragment
