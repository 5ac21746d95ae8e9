import Zwirn.Fragment.Rewrite

/-!
# Reading a rewritten source back

A rewritten source that parses again, with no path twice, has the fragments of the source: the
paths in their order, each with the hash that was stored and the text that was written
(`ParsedSource.readBack`). Only one text is read differently from how it was written: behind an
opening line that a lone CR ends, a leading LF belongs to that terminator
(`FragmentSection.readSource`).
-/

namespace Zwirn.Fragment

open Lib

/-! ## Lines with markers -/

section
variable {comment content : Str} {path path' : FragmentPath} {baseline baseline' : Option BaselineHash}
  {location location' : HashLocation}

/-- A marker is not empty. -/
theorem MarkerPrefix.ne_nil {opening : Bool} {pre : Str}
    (h : MarkerPrefix comment opening path pre) : pre ≠ [] := by
  obtain ⟨_, _, _, -, -, -, -, -, rfl⟩ := h
  simp [path.valid_parts.1]

/-- An opening line is not empty. -/
theorem OpeningContent.ne_nil (h : OpeningContent comment path content) : content ≠ [] := by
  obtain ⟨pre, tail, hpre, -, rfl⟩ := h
  simp [hpre.ne_nil]

/-- A closing line is not empty. -/
theorem ClosingContent.ne_nil (h : ClosingContent comment path content baseline location) :
    content ≠ [] := by
  cases h with
  | missing hpre _ | present hpre _ _ _ _ _ => simp [hpre.ne_nil]

variable (hc : Edge comment)
include hc

/-- An opening line is not plain. -/
theorem OpeningContent.not_plain {l : Line} (h : OpeningContent comment path l.content) :
    ¬ Plain comment l := by
  intro hplain
  have hread := (@parseMarker_opening comment ⟨0, 0, 0, l.content⟩ path hc).2 h
  rw [parseMarker_none.2 (by exact hplain)] at hread
  cases hread

/-- A closing line is not plain. -/
theorem ClosingContent.not_plain {l : Line}
    (h : ClosingContent comment path l.content baseline location) : ¬ Plain comment l := by
  intro hplain
  have hread := (@parseMarker_closing comment ⟨0, 0, 0, l.content⟩ path hc _ _).2 ⟨_, h, rfl⟩
  rw [parseMarker_none.2 (by exact hplain)] at hread
  cases hread

/-- A line opens one fragment. -/
theorem OpeningContent.unique (h : OpeningContent comment path content)
    (h' : OpeningContent comment path' content) : path' = path := by
  have hread := (@parseMarker_opening comment ⟨0, 0, 0, content⟩ path hc).2 h
  rw [(parseMarker_opening hc).2 h'] at hread
  cases hread
  rfl

/-- A line closes one fragment, with one hash. -/
theorem ClosingContent.unique (h : ClosingContent comment path content baseline location)
    (h' : ClosingContent comment path' content baseline' location') :
    path' = path ∧ baseline' = baseline := by
  have hread := (@parseMarker_closing comment ⟨0, 0, 0, content⟩ path hc _ _).2 ⟨_, h, rfl⟩
  rw [(parseMarker_closing hc).2 ⟨_, h', rfl⟩] at hread
  simp only [Except.ok.injEq, Option.some.injEq, Marker.closing.injEq] at hread
  exact ⟨hread.1, hread.2.1⟩

/-- A line that closes a fragment opens none. -/
theorem ClosingContent.not_opening (h : ClosingContent comment path content baseline location) :
    ¬ OpeningContent comment path' content := by
  intro h'
  have hread := (@parseMarker_closing comment ⟨0, 0, 0, content⟩ path hc _ _).2 ⟨_, h, rfl⟩
  rw [(parseMarker_opening hc).2 h'] at hread
  cases hread

end

/-! ## The lines of a rewritten section -/

namespace FragmentSection

/-- The CR behind the opening line and an LF in front of the source are one terminator. -/
def Merges (s : FragmentSection) (source : Str) : Prop :=
  s.opening.terminator = .cr ∧ source.head? = some '\n'

instance (s : FragmentSection) (source : Str) : Decidable (s.Merges source) :=
  inferInstanceAs (Decidable (_ ∧ _))

/-- The opening line as it is read in front of `source`: a lone CR and an LF that the source begins
with are read as one line end. -/
def readOpening (s : FragmentSection) (source : Str) : Line :=
  if s.Merges source then { s.opening with terminator := .crlf } else s.opening

/-- What is read of a source behind the opening line. -/
def readSource (s : FragmentSection) (source : Str) : Str :=
  if s.Merges source then source.tail else source

/-- The opening line and the source as they are read have the text that was written. -/
theorem readOpening_text (s : FragmentSection) (source : Str) :
    (s.readOpening source).text ++ s.readSource source = s.opening.text ++ source := by
  unfold readOpening readSource
  split
  · next h =>
    obtain ⟨hcr, hlf⟩ := h
    obtain ⟨rest, rfl⟩ := List.head?_eq_some_iff.1 hlf
    simp [Line.text, hcr, Terminator.chars]
  · rfl

/-- What the opening line holds is read as it was written. -/
theorem readOpening_content (s : FragmentSection) (source : Str) :
    (s.readOpening source).content = s.opening.content := by
  unfold readOpening
  split <;> rfl

/-- The section as it is read after its fragment was turned into `u`. -/
def updated (s : FragmentSection) (u : FragmentView) : FragmentSection :=
  { s with
    opening := s.readOpening u.source
    body := splitLines (s.readSource u.source)
    closing := s.closingWith u.baseline
    baseline := u.baseline }

/-- The lines of an updated section have the text that was written. -/
theorem joinLines_updated (s : FragmentSection) (u : FragmentView) :
    joinLines (s.updated u).lines = s.updatedText u := by
  have htext := s.readOpening_text u.source
  rw [joinLines_lines, updated, updatedText, joinLines_splitLines,
    ← List.append_assoc (s.readOpening u.source).text, htext, List.append_assoc]

/-- Storing a hash keeps the line end of the closing line. -/
theorem closingWith_terminator (s : FragmentSection) (baseline : Option BaselineHash) :
    (s.closingWith baseline).terminator = s.closing.terminator := by
  unfold closingWith
  cases baseline with
  | none => rfl
  | some hash =>
    dsimp only
    split <;> rfl

end FragmentSection

/-- The text that stores a hash has no line end in it. It is a row of digits, with a blank in front
where no hash was stored. -/
theorem HashLocation.isEol_storedText {location : HashLocation} {hash : BaselineHash} {c : Char}
    (h : c ∈ location.storedText hash) : isEol c = false := by
  have hdisplay : ∀ c ∈ hash.display, isEol c = false := by
    intro c hc
    obtain ⟨n, hn, rfl⟩ := BaselineHash.mem_display hc
    clear hc
    revert n
    decide
  cases location with
  | present a b => exact hdisplay c h
  | missing a =>
    rcases List.mem_cons.1 h with rfl | h
    · rfl
    · exact hdisplay c h

section
variable {comment : Str} {s : FragmentSection} (h : s.Ok comment)
include h

/-- The closing line with the hash is a line. The stored text has no line end in it. -/
theorem FragmentSection.Ok.closingWith_ok (hok : s.closing.Ok) {baseline : Option BaselineHash}
    (hb : baseline = none → s.baseline = none) : (s.closingWith baseline).Ok := by
  obtain ⟨location, hclosing⟩ := h.closingWith hb
  refine ⟨fun c hc => ?_, fun _ => hclosing.ne_nil⟩
  unfold FragmentSection.closingWith at hc
  cases baseline with
  | none => exact hok.noEol c hc
  | some hash =>
    dsimp only at hc
    split at hc
    · rw [List.mem_append, List.mem_append] at hc
      rcases hc with (hc | hc) | hc
      · exact hok.noEol c (List.mem_of_mem_take hc)
      · exact HashLocation.isEol_storedText hc
      · exact hok.noEol c (List.mem_of_mem_drop hc)
    · exact hok.noEol c hc

/-- The opening line does not start with LF, however it is read. -/
theorem FragmentSection.Ok.opening_not_lf (source : Str) : ¬ (s.readOpening source).StartsLf := by
  intro hlf
  have hne := h.opening.ne_nil
  rw [← s.readOpening_content source] at hne
  exact hne hlf.1

/-- The lines of an updated section are valid, like those of the section. A source that begins with
LF may merge with a CR that ends the opening line. Then the opening line ends with CR LF, and the
lines of the source are those behind its first character. -/
theorem FragmentSection.Ok.updated_valid (hv : Valid s.lines) {u : FragmentView}
    (hu : Terminated u.source) (hb : u.baseline = none → s.baseline = none) :
    Valid (s.updated u).lines := by
  obtain ⟨hgap, hrest, hjoin⟩ := valid_append.1 hv
  obtain ⟨hopening, hbody, hfirst⟩ := valid_cons.1 hrest
  have hclosing := h.closingWith_ok ((valid_append.1 hbody).2.1.ok _ (by simp)) hb
  obtain ⟨_, hcontent⟩ := h.closingWith hb
  have hterminator : s.opening.terminator ≠ .none := by
    obtain ⟨b, hb⟩ : ∃ b, b ∈ (s.body ++ [s.closing]).head? := by cases s.body <;> simp
    exact (hfirst b hb).1
  -- the source, with the closing line behind it
  have hsource : Terminated (s.readSource u.source) := by
    unfold FragmentSection.readSource
    split
    · intro c hc
      rw [List.getLast?_tail] at hc
      split at hc
      · cases hc
      · exact hu c hc
    · exact hu
  have hvalid : Valid (splitLines (s.readSource u.source) ++ [s.closingWith u.baseline]) := by
    refine valid_append.2 ⟨splitLines_valid _, ⟨by simpa using hclosing, .singleton _⟩, ?_⟩
    intro a ha b hb
    obtain rfl : b = s.closingWith u.baseline := by simpa using hb.symm
    exact ⟨hsource.getLast ha, fun _ hlf => hcontent.ne_nil hlf.1⟩
  -- the opening line in front of them
  have hfollows : ∀ b ∈ (splitLines (s.readSource u.source) ++ [s.closingWith u.baseline]).head?,
      (s.readOpening u.source).Follows b := by
    intro b hb
    by_cases hm : s.Merges u.source
    · rw [FragmentSection.readOpening, if_pos hm]
      exact ⟨by simp, by simp⟩
    · rw [FragmentSection.readOpening, if_neg hm]
      rw [FragmentSection.readSource, if_neg hm] at hb
      refine ⟨hterminator, fun hcr hlf => ?_⟩
      cases hlines : splitLines u.source with
      | nil =>
        obtain rfl : b = s.closingWith u.baseline := by simpa [hlines] using hb.symm
        exact hcontent.ne_nil hlf.1
      | cons l ls =>
        obtain rfl : b = l := by simpa [hlines] using hb.symm
        exact hm ⟨hcr, (splitLines_head (by simp [hlines])).1 hlf⟩
  have hopening' : (s.readOpening u.source).Ok := by
    refine ⟨?_, fun _ => ?_⟩
    · rw [s.readOpening_content]
      exact hopening.noEol
    · rw [s.readOpening_content]
      exact h.opening.ne_nil
  have hvalid' := valid_cons.2 ⟨hopening', hvalid, hfollows⟩
  exact hv.replace hgap hvalid' (fun x hx => ⟨x, hx, rfl⟩)
    (.of_cons (fun hlf => absurd hlf (h.opening_not_lf u.source)) _ _)

/-- An updated section begins and ends like the section. So it can take the place of the section
among other lines. -/
theorem FragmentSection.Ok.updated_edges (u : FragmentView) (rest rest' : List Line) :
    Heads (s.lines ++ rest) ((s.updated u).lines ++ rest') ∧
      ∀ x' ∈ (s.updated u).lines.getLast?, ∃ x ∈ s.lines.getLast?,
        x'.terminator = x.terminator := by
  constructor
  · obtain ⟨gap, opening, body, closing, path, baseline, location⟩ := s
    cases gap with
    | nil => exact .of_cons (fun hlf => absurd hlf (h.opening_not_lf u.source)) _ _
    | cons l gap => exact .of_cons id _ _
  · intro x' hx'
    have hlast : ∀ (front : List Line) (o : Line) (body : List Line) (c : Line),
        (front ++ o :: (body ++ [c])).getLast? = some c := by
      intro front o body c
      rw [← List.cons_append, ← List.append_assoc, List.getLast?_append]
      rfl
    rw [FragmentSection.lines, hlast] at hx'
    cases hx'
    exact ⟨s.closing, by rw [FragmentSection.lines, hlast]; rfl, s.closingWith_terminator _⟩

end

/-- Updated sections are the split of their text. The induction is on the sections, each of which is
exchanged in front of the others. -/
theorem valid_updated {comment : Str} {ss : List FragmentSection} {tail : List Line}
    (hok : ∀ s ∈ ss, s.Ok comment) (hv : Valid (ss.flatMap FragmentSection.lines ++ tail))
    {want : FragmentView → FragmentView}
    (hwant : ∀ s ∈ ss, Terminated (want s.fragment).source ∧
      ((want s.fragment).baseline = none → s.baseline = none)) :
    Valid ((ss.flatMap fun s => (s.updated (want s.fragment)).lines) ++ tail) ∧
      Heads (ss.flatMap FragmentSection.lines ++ tail)
        ((ss.flatMap fun s => (s.updated (want s.fragment)).lines) ++ tail) := by
  induction ss with
  | nil => exact ⟨hv, .refl _⟩
  | cons s ss ih =>
    rw [List.flatMap_cons, List.append_assoc] at hv
    obtain ⟨hs, hrest, -⟩ := valid_append.1 hv
    obtain ⟨hrest', hheads⟩ := ih (fun s' hs => hok s' (List.mem_cons_of_mem _ hs)) hrest
      fun s' hs => hwant s' (List.mem_cons_of_mem _ hs)
    have hsok := hok s (by simp)
    obtain ⟨hu, hb⟩ := hwant s (by simp)
    obtain ⟨hhead, hlast⟩ := hsok.updated_edges (want s.fragment)
      (ss.flatMap FragmentSection.lines ++ tail)
      ((ss.flatMap fun s => (s.updated (want s.fragment)).lines) ++ tail)
    simp only [List.flatMap_cons, List.append_assoc]
    exact ⟨hv.replace (hsok.updated_valid hs hu hb) hrest' hlast hheads, hhead⟩

/-! ## Sections of lines are determined by the lines -/

/-- A section whose source may contain anything. -/
structure FragmentSection.Framed (comment : Str) (s : FragmentSection) : Prop where
  gap : ∀ l ∈ s.gap, Plain comment l
  opening : OpeningContent comment s.path s.opening.content
  closing : ∃ location, ClosingContent comment s.path s.closing.content s.baseline location

/-- An updated section is framed by its markers, if no hash is taken away. -/
theorem FragmentSection.Ok.updated_framed {comment : Str} {s : FragmentSection} (h : s.Ok comment)
    {u : FragmentView} (hb : u.baseline = none → s.baseline = none) :
    (s.updated u).Framed comment := by
  refine ⟨h.gap, ?_, h.closingWith hb⟩
  have hopening := h.opening
  rw [← s.readOpening_content u.source] at hopening
  exact hopening

/-- The sections have the same lines and the same markers. -/
structure FragmentSection.SameLines (s' s : FragmentSection) : Prop where
  gap : s'.gap = s.gap
  opening : s'.opening = s.opening
  body : s'.body = s.body
  closing : s'.closing = s.closing
  path : s'.path = s.path
  baseline : s'.baseline = s.baseline

/-- Sections with the same lines have the same fragment. -/
theorem FragmentSection.SameLines.fragment_eq {s s' : FragmentSection} (h : s'.SameLines s) :
    s'.fragment = s.fragment := by
  rw [FragmentSection.fragment, FragmentSection.fragment, h.path, h.baseline, h.body]

/-- The first element without a property splits a list in one way. The elements in front of it have
the property, on both sides. -/
theorem append_cons_unique {α : Type} {P : α → Prop} {xs xs' ys ys' : List α} {x x' : α}
    (h : xs ++ x :: ys = xs' ++ x' :: ys') (hxs : ∀ a ∈ xs, P a) (hx : ¬ P x)
    (hxs' : ∀ a ∈ xs', P a) (hx' : ¬ P x') : xs = xs' ∧ x = x' ∧ ys = ys' := by
  induction xs generalizing xs' with
  | nil =>
    cases xs' with
    | nil => simpa using h
    | cons a xs' =>
      obtain ⟨rfl, -⟩ := List.cons.inj h
      exact absurd (hxs' x (by simp)) hx
  | cons a xs ih =>
    cases xs' with
    | nil =>
      obtain ⟨rfl, -⟩ := List.cons.inj h
      exact absurd (hxs a (by simp)) hx'
    | cons a' xs' =>
      obtain ⟨rfl, hcons⟩ := List.cons.inj h
      obtain ⟨rfl, hrest⟩ := ih hcons (fun a ha => hxs a (List.mem_cons_of_mem _ ha))
        fun a ha => hxs' a (List.mem_cons_of_mem _ ha)
      exact ⟨rfl, hrest⟩

section
variable {comment : Str} (hc : Edge comment)
include hc

/-- A closing line among sections closes one of them. The other lines of a section are plain or open
one. -/
theorem closing_mem {ss : List FragmentSection} {tail : List Line}
    (hss : ∀ s ∈ ss, s.Ok comment) (htail : ∀ l ∈ tail, Plain comment l) {l : Line}
    (hl : l ∈ ss.flatMap FragmentSection.lines ++ tail) {path : FragmentPath}
    {baseline : Option BaselineHash} {location : HashLocation}
    (h : ClosingContent comment path l.content baseline location) : ∃ s ∈ ss, s.path = path := by
  rcases List.mem_append.1 hl with hl | hl
  · obtain ⟨s, hs, hl⟩ := List.mem_flatMap.1 hl
    refine ⟨s, hs, ?_⟩
    have hok := hss s hs
    simp only [FragmentSection.lines, List.mem_append, List.mem_cons, List.not_mem_nil,
      or_false] at hl
    rcases hl with hl | rfl | hl | rfl
    · exact absurd (hok.gap l hl) (h.not_plain hc)
    · exact absurd hok.opening (h.not_opening hc)
    · exact absurd (hok.body l hl) (h.not_plain hc)
    · exact (h.unique hc hok.closing).1
  · exact absurd (htail l hl) (h.not_plain hc)

/-- Sections whose paths are all different are those of any framed sections with the same lines: a
marker in the source of a fragment would use its path a second time. -/
theorem sections_aligned {ss ss' : List FragmentSection} {tail tail' : List Line}
    (h : ss.flatMap FragmentSection.lines ++ tail = ss'.flatMap FragmentSection.lines ++ tail')
    (hss : ∀ s ∈ ss, s.Framed comment) (htail : ∀ l ∈ tail, Plain comment l)
    (hss' : ∀ s ∈ ss', s.Ok comment) (htail' : ∀ l ∈ tail', Plain comment l)
    (hnodup : (ss'.map FragmentSection.path).Nodup) :
    List.Forall₂ FragmentSection.SameLines ss' ss ∧ tail' = tail := by
  induction ss generalizing ss' with
  | nil =>
    cases ss' with
    | nil => exact ⟨.nil, h.symm⟩
    | cons s' ss' =>
      have hmem : s'.opening ∈ tail := by
        rw [show tail = _ from h]
        simp [FragmentSection.lines]
      exact absurd (htail _ hmem) ((hss' s' (by simp)).opening.not_plain hc)
  | cons s ss ih =>
    have hs := hss s (by simp)
    cases ss' with
    | nil =>
      have hmem : s.opening ∈ tail' := by
        rw [← show _ = tail' from h]
        simp [FragmentSection.lines]
      exact absurd (htail' _ hmem) (hs.opening.not_plain hc)
    | cons s' ss' =>
      have hs' := hss' s' (by simp)
      have hrest' := fun s hs => hss' s (List.mem_cons_of_mem s' hs)
      obtain ⟨location, hclosing⟩ := hs.closing
      rw [List.map_cons, List.nodup_cons] at hnodup
      simp only [List.flatMap_cons, FragmentSection.lines, List.append_assoc, List.cons_append,
        List.nil_append] at h
      obtain ⟨hgap, hopening, h⟩ := append_cons_unique h hs.gap (hs.opening.not_plain hc) hs'.gap
        (hs'.opening.not_plain hc)
      have hpath : s'.path = s.path := by
        have hopen := hs'.opening
        rw [← hopening] at hopen
        exact hs.opening.unique hc hopen
      -- the closing lines stand at the same place
      obtain ⟨hbody, hclose, h⟩ : s.body = s'.body ∧ s.closing = s'.closing ∧
          ss.flatMap FragmentSection.lines ++ tail = ss'.flatMap FragmentSection.lines ++ tail' := by
        rcases List.append_eq_append_iff.1 h with ⟨as, hbody, h⟩ | ⟨bs, hbody, h⟩
        · cases as with
          | nil => exact ⟨by simpa using hbody.symm, List.cons.inj h⟩
          | cons a as =>
            obtain ⟨rfl, -⟩ := List.cons.inj h
            exact absurd (hs'.body _ (by simp [hbody])) (hclosing.not_plain hc)
        · cases bs with
          | nil => exact ⟨by simpa using hbody, (List.cons.inj h).1.symm, (List.cons.inj h).2.symm⟩
          | cons b bs =>
            obtain ⟨-, h⟩ := List.cons.inj h
            obtain ⟨s'', hs'', heq⟩ := closing_mem hc hrest' htail'
              (show s.closing ∈ _ by rw [h]; simp) hclosing
            exact absurd (List.mem_map.2 ⟨s'', hs'', heq.trans hpath.symm⟩) hnodup.1
      have hbaseline : s'.baseline = s.baseline := by
        have hclosing' := hs'.closing
        rw [← hclose] at hclosing'
        exact (hclosing.unique hc hclosing').2
      obtain ⟨haligned, htails⟩ := ih h (fun s'' hs => hss s'' (List.mem_cons_of_mem _ hs)) hrest'
        hnodup.2
      exact ⟨.cons ⟨hgap.symm, hopening.symm, hbody.symm, hclose.symm, hpath, hbaseline⟩ haligned,
        htails⟩

end

/-! ## Reading back -/

/-- Canonical source is empty or ends with a line end. -/
theorem CanonicalSource.terminated (source : CanonicalSource) : Terminated source.value := by
  intro c hc
  rcases source.shape.2 with h | h
  · rw [h] at hc
    cases hc
  · rw [h] at hc
    cases hc
    rfl

section
variable {s : FragmentSection} (hv : Valid s.lines)
include hv

/-- The source of a fragment is empty or ends with a line end. -/
theorem FragmentSection.terminated_body : Terminated (joinLines s.body) :=
  (valid_cons.1 (valid_append.1 hv).2.1).2.1.terminated

/-- The source of a section as it stands is read as it is. -/
theorem FragmentSection.not_merges_body : ¬ s.Merges (joinLines s.body) := by
  intro hm
  obtain ⟨hcr, hlf⟩ := hm
  obtain ⟨-, hbody, hfollows⟩ := valid_cons.1 (valid_append.1 hv).2.1
  cases hlines : s.body with
  | nil => simp [hlines] at hlf
  | cons l ls =>
    rw [hlines, List.cons_append] at hbody hfollows
    have hok := (valid_cons.1 hbody).1
    rw [hlines, joinLines_cons, hok.head_lf] at hlf
    exact (hfollows l rfl).2 hcr hlf

end

/-- The text in front of the source of the fragment ends with CR. -/
def FragmentPlace.BehindCr (source : Str) (f : FragmentPlace) : Prop :=
  (source.take f.start).getLast? = some '\r'

instance (source : Str) (f : FragmentPlace) : Decidable (f.BehindCr source) :=
  inferInstanceAs (Decidable (_ = _))

/-- The text in front of the source of the fragment ends with CR LF. -/
def FragmentPlace.BehindCrLf (source : Str) (f : FragmentPlace) : Prop :=
  ['\r', '\n'] <:+ source.take f.start

/-- What is read of the fragment at a place after it was turned into `u`. -/
def FragmentPlace.reread (source : Str) (f : FragmentPlace) (u : FragmentView) : FragmentView :=
  if f.BehindCr source ∧ u.source.head? = some '\n' then { u with source := u.source.tail } else u

section
variable {source before after : Str} {s : FragmentSection}

/-- In front of the source of a section stands its opening line. -/
theorem FragmentSection.take_place (hsource : source = before ++ (joinLines s.lines ++ after)) :
    source.take (s.place before.length).start = before ++ joinLines s.gap ++ s.opening.text := by
  rw [hsource, s.joinLines_lines]
  have hlen : (s.place before.length).start =
      (before ++ joinLines s.gap ++ s.opening.text).length := by
    simp only [place, sourceStart, List.length_append]
  rw [hlen, ← List.append_assoc, ← List.append_assoc, ← List.append_assoc]
  simp only [List.append_assoc _ _ after]
  exact List.take_left

/-- The CR in front of the source of a section ends its opening line. -/
theorem FragmentSection.behindCr_place (hv : Valid s.lines)
    (hsource : source = before ++ (joinLines s.lines ++ after)) :
    (s.place before.length).BehindCr source ↔ s.opening.terminator = .cr := by
  have hok : s.opening.Ok := (valid_cons.1 (valid_append.1 hv).2.1).1
  rw [FragmentPlace.BehindCr, FragmentSection.take_place hsource, hok.getLast_cr]

/-- An opening line that ends with CR LF stands in front of the source of its section. -/
theorem FragmentSection.behindCrLf_place (hopening : s.opening.terminator = .crlf)
    (hsource : source = before ++ (joinLines s.lines ++ after)) :
    (s.place before.length).BehindCrLf source := by
  rw [FragmentPlace.BehindCrLf, FragmentSection.take_place hsource, Line.text, hopening,
    ← List.append_assoc]
  exact List.suffix_append _ _

/-- What is read of an updated section. A first LF is lost where the opening line ends with a lone
CR, and this alone tells what is read from what was written. -/
theorem FragmentSection.reread_place (hv : Valid s.lines)
    (hsource : source = before ++ (joinLines s.lines ++ after)) {u : FragmentView}
    (hpath : u.path = s.path) :
    (s.place before.length).reread source u = (s.updated u).fragment := by
  have hmerges : (s.place before.length).BehindCr source ∧ u.source.head? = some '\n' ↔
      s.Merges u.source := by
    rw [FragmentSection.behindCr_place hv hsource, FragmentSection.Merges]
  have hread : (s.updated u).fragment = ⟨u.path, u.baseline, s.readSource u.source⟩ := by
    rw [FragmentSection.fragment, FragmentSection.updated, joinLines_splitLines, hpath]
  rw [hread, FragmentPlace.reread, FragmentSection.readSource]
  by_cases hm : s.Merges u.source
  · rw [if_pos (hmerges.2 hm), if_pos hm]
  · rw [if_neg (fun h => hm (hmerges.1 h)), if_neg hm]

end

section
variable {kind : Adls.NodeKind} {p : ParsedSource}

/-- The source of a fragment as it stands is read as it is. -/
theorem ParsedSource.reread_view (h : ParsedSource.parse kind p.source = .ok p)
    {f : ParsedFragment p.source} (hf : f ∈ p.fragments) :
    ¬ (f.BehindCr p.source ∧ f.view.source.head? = some '\n') := by
  obtain ⟨-, ss, tail, hs⟩ := ParsedSource.parse_eq_ok.1 h
  obtain ⟨s, hmem, before, after, hsource, hplace⟩ := hs.exists_section hf
  have hview : f.view = s.fragment := by
    rw [← FragmentSection.view_place hsource, ← hplace]
    rfl
  rw [hplace, FragmentSection.behindCr_place (hs.valid hmem) hsource, hview]
  exact FragmentSection.not_merges_body (hs.valid hmem)

variable [Sha256]

/-- The sections of a rewritten source that parses again, without a path twice, are those of the
source, each updated with what the batch makes of it. -/
theorem ParsedSource.sections_updated {p' : ParsedSource} {ss ss' : List FragmentSection}
    {tail tail' : List Line} (hs : p.Sections kind ss tail) (hs' : p'.Sections kind ss' tail')
    {updates : List FragmentUpdate}
    (h : p'.source =
      (ss.flatMap fun s => s.updatedText (s.fragment.wanted updates)) ++ joinLines tail)
    (hnodup : (p'.view.map FragmentView.path).Nodup) :
    List.Forall₂ (fun s' s => s'.SameLines (s.updated (s.fragment.wanted updates))) ss' ss ∧
      tail' = tail := by
  have hv : Valid (ss.flatMap FragmentSection.lines ++ tail) := by
    rw [← hs.lines]
    exact splitLines_valid _
  obtain ⟨hvalid, -⟩ := @valid_updated _ ss tail hs.ok hv (FragmentView.wanted updates) fun s hmem => by
    refine ⟨?_, FragmentView.wanted_baseline⟩
    unfold FragmentView.wanted FragmentView.updated
    split
    · exact FragmentSection.terminated_body (hs.valid hmem)
    · exact FragmentSection.terminated_body (hs.valid hmem)
    · next source _ => exact source.terminated
  have hlines : splitLines p'.source =
      (ss.map fun s => s.updated (s.fragment.wanted updates)).flatMap FragmentSection.lines ++
        tail := by
    rw [splitLines_eq_iff, List.flatMap_map]
    refine ⟨hvalid, ?_⟩
    rw [joinLines_append, joinLines_flatMap, h]
    simp only [FragmentSection.joinLines_updated]
  have hpaths : (ss'.map FragmentSection.path).Nodup := by
    rw [hs'.view_eq, List.map_map] at hnodup
    exact hnodup
  have hframed : ∀ s ∈ ss.map fun s => s.updated (s.fragment.wanted updates),
      s.Framed (markerComment kind) := by
    intro s' hmem'
    obtain ⟨s, hmem, rfl⟩ := List.mem_map.1 hmem'
    exact (hs.ok s hmem).updated_framed FragmentView.wanted_baseline
  obtain ⟨haligned, htail⟩ := sections_aligned (markerComment_edge kind)
    (hlines.symm.trans hs'.lines) hframed hs.tail hs'.ok hs'.tail hpaths
  exact ⟨List.forall₂_map_right_iff.1 haligned, htail⟩

/-- A rewritten source that parses again, without a path twice, has the fragments of the source,
each with what the batch makes of it. -/
theorem ParsedSource.readBack {p' : ParsedSource} (hparse : ParsedSource.parse kind p.source = .ok p)
    {updates : List FragmentUpdate} {out : Cow Str} (h : p.rewrite updates = .ok out)
    (h' : ParsedSource.parse kind out.value = .ok p')
    (hnodup : (p'.view.map FragmentView.path).Nodup) :
    p'.view = p.fragments.map fun f => f.reread p.source (f.view.wanted updates) := by
  obtain ⟨-, ss, tail, hs⟩ := ParsedSource.parse_eq_ok.1 hparse
  obtain ⟨hsource, ss', tail', hs'⟩ := ParsedSource.parse_eq_ok.1 h'
  obtain ⟨-, hvalue⟩ := ParsedSource.rewrite_value hs h
  obtain ⟨haligned, -⟩ := ParsedSource.sections_updated hs hs' (hsource.trans hvalue) hnodup
  have hread : p.fragments.map (fun f => f.reread p.source (f.view.wanted updates)) =
      ss.map fun s => (s.updated (s.fragment.wanted updates)).fragment := by
    refine hs.map_eq fun s hmem f before after hsource hf => ?_
    have hview : f.view = s.fragment := by
      rw [← FragmentSection.view_place hsource, ← hf]
      rfl
    rw [hview, hf]
    exact FragmentSection.reread_place (hs.valid hmem) hsource (s.fragment.wanted_path updates)
  rw [hs'.view_eq, hread]
  exact map_eq_of_forall₂ haligned fun s' s hsame => hsame.fragment_eq

/-- A text that begins with LF and is put behind a CR lengthens the terminator of the opening line:
when the rewritten source is read again, the fragment stands behind CR LF. -/
theorem ParsedSource.behindCrLf_of_rewrite {p' : ParsedSource}
    (hparse : ParsedSource.parse kind p.source = .ok p) {updates : List FragmentUpdate}
    {out : Cow Str} (h : p.rewrite updates = .ok out)
    (h' : ParsedSource.parse kind out.value = .ok p')
    (hnodup : (p'.view.map FragmentView.path).Nodup) {f : ParsedFragment p.source}
    (hf : f ∈ p.fragments) (hcr : f.BehindCr p.source)
    (hlf : (f.view.wanted updates).source.head? = some '\n') :
    ∃ f' ∈ p'.fragments, f'.path = f.path ∧ f'.BehindCrLf p'.source := by
  obtain ⟨-, ss, tail, hs⟩ := ParsedSource.parse_eq_ok.1 hparse
  obtain ⟨hsource, ss', tail', hs'⟩ := ParsedSource.parse_eq_ok.1 h'
  obtain ⟨-, hvalue⟩ := ParsedSource.rewrite_value hs h
  obtain ⟨haligned, -⟩ := ParsedSource.sections_updated hs hs' (hsource.trans hvalue) hnodup
  -- the section of the fragment, before and after
  obtain ⟨s, hmem, before, after, htext, hplace⟩ := hs.exists_section hf
  obtain ⟨s', hmem', hsame⟩ := exists_left_of_forall₂ haligned hmem
  obtain ⟨f', hf', before', after', htext', hplace'⟩ := exists_left_of_forall₂ hs'.forall₂ hmem'
  have hview : f.view = s.fragment := by
    rw [← FragmentSection.view_place htext, ← hplace]
    rfl
  rw [hplace, FragmentSection.behindCr_place (hs.valid hmem) htext] at hcr
  rw [hview] at hlf
  refine ⟨f', hf', ?_, ?_⟩
  · rw [show f'.path = s'.path by rw [hplace']; rfl, show f.path = s.path by rw [hplace]; rfl]
    exact hsame.path
  · rw [hplace']
    refine FragmentSection.behindCrLf_place ?_ htext'
    rw [hsame.opening]
    exact congrArg Line.terminator (if_pos ⟨hcr, hlf⟩)

/-- A fragment that the batch replaces is wanted with the replacement and its hash. -/
theorem FragmentView.wanted_replace {updates : List FragmentUpdate}
    (hnodup : (updates.map FragmentUpdate.path).Nodup) {path : FragmentPath}
    {source : CanonicalSource} (hu : .replace path source ∈ updates) {f : FragmentView}
    (hf : f.path = path) : f.wanted updates = ⟨path, some (.fromSource source), source.value⟩ := by
  rw [FragmentView.wanted_of_mem hnodup hu hf, ← hf]
  rfl

/-- The only fragment with the path has exactly the source, and the hash of it. -/
def ReadsBack (fragments : List FragmentView) (path : FragmentPath) (source : CanonicalSource) :
    Prop :=
  fragments.filter (fun f => f.path = path) = [⟨path, some (.fromSource source), source.value⟩]

omit [Sha256] in
/-- Of fragments with different paths a path names one. The others have other paths. -/
theorem filter_path_eq {fragments : List FragmentView}
    (hnodup : (fragments.map FragmentView.path).Nodup) {f : FragmentView} (hf : f ∈ fragments) :
    fragments.filter (fun f' => f'.path = f.path) = [f] := by
  induction fragments with
  | nil => cases hf
  | cons f' fragments ih =>
    rw [List.map_cons, List.nodup_cons] at hnodup
    rcases List.mem_cons.1 hf with rfl | hf
    · have hnone : fragments.filter (fun f' => f'.path = f.path) = [] := by
        refine List.filter_eq_nil_iff.2 fun f' hf' => ?_
        intro heq
        exact hnodup.1 (List.mem_map.2 ⟨f', hf', by simpa using heq⟩)
      rw [List.filter_cons_of_pos (by simp), hnone]
    · have hne : f'.path ≠ f.path := by
        intro heq
        exact hnodup.1 (List.mem_map.2 ⟨f, hf, heq.symm⟩)
      rw [List.filter_cons_of_neg (by simpa using hne), ih hnodup.2 hf]

/-- Every replaced fragment reads back what was written, exactly when no replacement that begins
with LF stands behind a CR. Then, and only then, the LF becomes the second half of the line end in
front of it, and the fragment reads back without it. -/
theorem ParsedSource.replaced_readsBack_iff {source : Str} {p' : ParsedSource}
    (hparse : ParsedSource.parse kind source = .ok p) {updates : List FragmentUpdate}
    {out : Cow Str} (h : p.rewrite updates = .ok out)
    (h' : ParsedSource.parse kind out.value = .ok p')
    (hnodup : (p'.view.map FragmentView.path).Nodup) :
    (∀ path source, .replace path source ∈ updates → ReadsBack p'.view path source) ↔
      ∀ path source, .replace path source ∈ updates → ∀ f ∈ p.fragments, f.path = path →
        ¬ (f.BehindCr p.source ∧ source.value.head? = some '\n') := by
  obtain ⟨rfl, ss, tail, hs⟩ := ParsedSource.parse_eq_ok.1 hparse
  obtain ⟨haddressed, -⟩ := ParsedSource.rewrite_value hs h
  have hread := ParsedSource.readBack hparse h h' hnodup
  have hmem : ∀ f ∈ p.fragments, f.reread p.source (f.view.wanted updates) ∈ p'.view := by
    intro f hf
    rw [hread]
    exact List.mem_map.2 ⟨f, hf, rfl⟩
  constructor
  · intro hback path source hu f hf hpath hm
    have hreread := hmem f hf
    rw [FragmentView.wanted_replace haddressed.nodup hu hpath, FragmentPlace.reread,
      if_pos hm] at hreread
    have hfilter := filter_path_eq hnodup hreread
    rw [show _ = _ from hback path source hu, List.cons.injEq, FragmentView.mk.injEq] at hfilter
    obtain ⟨rest, hrest⟩ := List.head?_eq_some_iff.1 hm.2
    rw [hrest] at hfilter
    exact absurd hfilter.1.2.2 (List.cons_ne_self _ _)
  · intro hsafe path source hu
    obtain ⟨f', hf'⟩ := haddressed.unique _ hu
    obtain ⟨hmem', hpath'⟩ := List.mem_filter.1 (hf'.symm ▸ List.mem_singleton_self f')
    obtain ⟨f, hf, rfl⟩ := List.mem_map.1 hmem'
    have hpath : f.path = path := of_decide_eq_true hpath'
    have hreread := hmem f hf
    rw [FragmentView.wanted_replace haddressed.nodup hu hpath, FragmentPlace.reread,
      if_neg (hsafe path source hu f hf hpath)] at hreread
    exact filter_path_eq hnodup hreread

end

/-! ## A lost LF -/

/-- A digest that is the one of SHA-256 on a single LF. It makes the theorems run on small samples.
Only the digest of LF is that of SHA-256. -/
@[reducible] def lfDigest : Sha256 where
  digest bytes :=
    if bytes = [10] then
      [1, 186, 71, 25, 200, 11, 111, 233, 17, 176, 145, 167, 192, 81, 36, 182, 78, 238, 206, 150,
        78, 9, 192, 88, 239, 143, 152, 5, 218, 202, 84, 107]
    else List.replicate 32 0
  digest_length bytes := by split <;> rfl

/-- The path "p". -/
def samplePath : FragmentPath := ⟨['p'], rfl⟩

/-- The source that is one LF. -/
def lfSource : CanonicalSource := ⟨['\n'], by decide, by decide⟩

/-- A fragment without source whose opening line ends with `eol`. -/
def emptyFragment (eol : Str) : Str :=
  ['-', '-', ' ', '@', '{', ' ', 'p'] ++ eol ++ ['-', '-', ' ', '@', '}', ' ', 'p']

/-- Behind LF the replacement is read back, since an LF in front of it ends a line of its own. -/
theorem readsBack_behind_lf : ∃ (p p' : ParsedSource) (out : Cow Str),
    ParsedSource.parse .dsp (emptyFragment ['\n']) = .ok p ∧
    @ParsedSource.rewrite lfDigest p [.replace samplePath lfSource] = .ok out ∧
    ParsedSource.parse .dsp out.value = .ok p' ∧
    @ReadsBack lfDigest p'.view samplePath lfSource := by
  refine ⟨_, _, _, rfl, rfl, rfl, ?_⟩
  refine (@ParsedSource.replaced_readsBack_iff .dsp _ lfDigest (emptyFragment ['\n']) _ rfl
    [.replace samplePath lfSource] _ rfl rfl (by decide)).2 ?_ samplePath lfSource (by simp)
  intro path source _ f hf _ hm
  cases List.mem_singleton.1 hf
  exact absurd hm.1 (by decide)

/-- Behind CR the LF that was written is not read back. The opening line of the source ends with CR,
and with the LF behind it this is one line end. -/
theorem not_readsBack_behind_cr : ∃ (p p' : ParsedSource) (out : Cow Str),
    ParsedSource.parse .dsp (emptyFragment ['\r']) = .ok p ∧
    @ParsedSource.rewrite lfDigest p [.replace samplePath lfSource] = .ok out ∧
    ParsedSource.parse .dsp out.value = .ok p' ∧
    (p'.view.map FragmentView.path).Nodup ∧
    ¬ @ReadsBack lfDigest p'.view samplePath lfSource :=
  ⟨_, _, _, rfl, rfl, rfl, by decide, by unfold ReadsBack; decide⟩

end Zwirn.Fragment
