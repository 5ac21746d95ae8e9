import Zwirn.Lib.Slice
import Zwirn.Fragment.Marker

/-!
# Parsing the fragments of a source

`ParsedSource.parse` folds over the lines of a source. A source that it accepts is a sequence of
sections, each some plain lines, an opening line, the body and the closing line of a fragment, with
plain lines behind the last one; `ParsedSource.parse_eq_ok` is the equivalence. The code is in
`src/fragment.rs`.
-/

namespace Zwirn.Fragment

open Lib

/-- One discovered fragment in embedded source. -/
structure FragmentView where
  path : FragmentPath
  baseline : Option BaselineHash
  source : Str
deriving DecidableEq

/-- A fragment with the place of its source and of its hash. These places are what a rewrite
replaces. -/
structure FragmentPlace where
  path : FragmentPath
  baseline : Option BaselineHash
  start : Nat
  stop : Nat
  hashLocation : HashLocation
deriving DecidableEq

/-- The text of a range. -/
def span (source : Str) (start stop : Nat) : Str := slice source start (stop - start)

/-- A fragment of `source`; its own source does not begin with a byte-order mark. -/
structure ParsedFragment (source : Str) extends FragmentPlace where
  unmarked : ¬ StartsWithMark (span source start stop)

/-- A parsed view of the fragments in one source-bearing node. -/
structure ParsedSource where
  source : Str
  fragments : List (ParsedFragment source)

/-- A fragment is its place, since the other field is a proof. -/
theorem ParsedFragment.toFragmentPlace_injective {source : Str} :
    Function.Injective (@toFragmentPlace source) := by
  intro a b h
  cases a
  cases b
  cases h
  rfl

/-- What a caller sees of a fragment: path, hash and source. -/
def ParsedFragment.view {source : Str} (f : ParsedFragment source) : FragmentView :=
  ⟨f.path, f.baseline, span source f.start f.stop⟩

/-- The fragments in embedded source order. In the source it is `ParsedSource::fragments`. -/
def ParsedSource.view (p : ParsedSource) : List FragmentView := p.fragments.map ParsedFragment.view

/-- A fragment whose opening line was read: its path, and where this line and its source begin. -/
structure OpenFragment where
  path : FragmentPath
  line : Nat
  sourceStart : Nat
deriving DecidableEq

/-- What the loop over the lines accumulates: the fragments that were closed, and the one that is
open. -/
structure ParseState (source : Str) where
  fragments : List (ParsedFragment source)
  opened : Option OpenFragment

/-- One round of the loop over the lines. A marker opens a fragment where none is open, or closes
the open one, whose path it has to have. -/
def parseLine (comment source : Str) (st : ParseState source) (line : PhysicalLine) :
    Except ParseError (ParseState source) := do
  match ← parseMarker comment line with
  | none => pure st
  | some (.opening path) =>
    match st.opened with
    | some opened => .error (.nestedOpening line.number opened.line)
    | none => pure { st with opened := some ⟨path, line.number, line.stop⟩ }
  | some (.closing path baseline hashLocation) =>
    match st.opened with
    | none => .error (.orphanedClosing line.number)
    | some opened =>
      if path ≠ opened.path then
        .error (.mismatchedClosingPath line.number opened.line opened.path path)
      else if h : StartsWithMark (span source opened.sourceStart line.start) then
        .error (.invalidFragmentSource (opened.line + 1) opened.path .byteOrderMark)
      else
        pure ⟨st.fragments ++
          [⟨⟨opened.path, baseline, opened.sourceStart, line.start, hashLocation⟩, h⟩], none⟩

/-- Parses and structurally validates all markers in one node source. -/
def ParsedSource.parse (kind : Adls.NodeKind) (source : Str) : Except ParseError ParsedSource := do
  let st ← (physicalLines source).foldlM (parseLine (markerComment kind) source) ⟨[], none⟩
  match st.opened with
  | some opened => .error (.unterminated opened.line opened.path)
  | none => pure ⟨source, st.fragments⟩

/-! ## Sections -/

/-- Some lines, and behind them the lines of one fragment. -/
structure FragmentSection where
  gap : List Line
  opening : Line
  body : List Line
  closing : Line
  path : FragmentPath
  baseline : Option BaselineHash
  location : HashLocation

/-- A line without a marker. -/
def Plain (comment : Str) (l : Line) : Prop := markerStart comment l.content = none

namespace FragmentSection

/-- The lines of a section: plain lines, the opening line, the source of the fragment, the closing
line. -/
def lines (s : FragmentSection) : List Line := s.gap ++ s.opening :: (s.body ++ [s.closing])

/-- The section is what a parser with this comment reads. -/
structure Ok (comment : Str) (s : FragmentSection) : Prop where
  gap : ∀ l ∈ s.gap, Plain comment l
  opening : OpeningContent comment s.path s.opening.content
  body : ∀ l ∈ s.body, Plain comment l
  closing : ClosingContent comment s.path s.closing.content s.baseline s.location
  unmarked : ¬ StartsWithMark (joinLines s.body)

/-- Where the source of the fragment begins, for a section that begins at `start`. -/
def sourceStart (s : FragmentSection) (start : Nat) : Nat :=
  start + (joinLines s.gap).length + s.opening.text.length

/-- Where the source of the fragment ends, in a section that begins at `start`. -/
def sourceStop (s : FragmentSection) (start : Nat) : Nat :=
  s.sourceStart start + (joinLines s.body).length

/-- The fragment of a section that begins at `start`. -/
def place (s : FragmentSection) (start : Nat) : FragmentPlace :=
  ⟨s.path, s.baseline, s.sourceStart start, s.sourceStop start,
    s.location.shift (s.sourceStop start)⟩

/-- The fragments of sections the first of which begins at `start`. -/
def places : Nat → List FragmentSection → List FragmentPlace
  | _, [] => []
  | start, s :: ss => s.place start :: places (start + (joinLines s.lines).length) ss

/-- The fragment of a section: its source is the text of the lines between the markers. -/
def fragment (s : FragmentSection) : FragmentView := ⟨s.path, s.baseline, joinLines s.body⟩

/-- The text of a section, part by part. -/
theorem joinLines_lines (s : FragmentSection) : joinLines s.lines =
    joinLines s.gap ++ (s.opening.text ++ (joinLines s.body ++ s.closing.text)) := by
  simp [lines]

/-- The places of two lists of sections, of which the second one begins where the first one ends. -/
theorem places_append (start : Nat) (ss ss' : List FragmentSection) :
    places start (ss ++ ss') =
      places start ss ++ places (start + (joinLines (ss.flatMap lines)).length) ss' := by
  induction ss generalizing start with
  | nil => simp [places]
  | cons s ss ih =>
    simp only [List.cons_append, places, ih, List.flatMap_cons, joinLines_append,
      List.length_append, Nat.add_assoc]

end FragmentSection

/-! ## Steps of the loop -/

section
variable {comment source : Str} {st st' : ParseState source} {n start : Nat} {l : Line}

/-- The line `l` at its place. -/
def placed (n start : Nat) (l : Line) : PhysicalLine :=
  ⟨n, start, start + l.text.length, l.content⟩

/-- A plain line leaves the state as it is. -/
theorem parseLine_plain (h : Plain comment l) :
    parseLine comment source st (placed n start l) = .ok st := by
  unfold parseLine
  simp only [Except.bind_eq_ok]
  exact ⟨none, parseMarker_none.2 h, rfl⟩

/-- An opening line opens a fragment when none is open. -/
theorem parseLine_opening (hc : Edge comment) {path : FragmentPath}
    (h : OpeningContent comment path l.content) (hst : st.opened = none) :
    parseLine comment source st (placed n start l) =
      .ok { st with opened := some ⟨path, n, start + l.text.length⟩ } := by
  unfold parseLine
  simp only [Except.bind_eq_ok]
  refine ⟨some (.opening path), (parseMarker_opening hc).2 h, ?_⟩
  simp only [hst]
  rfl

/-- A closing line closes the open fragment of its path. What lies between the two lines becomes the
source of the fragment. -/
theorem parseLine_closing (hc : Edge comment) {path : FragmentPath}
    {baseline : Option BaselineHash} {location : HashLocation} {line sourceStart : Nat}
    (h : ClosingContent comment path l.content baseline location)
    (hst : st.opened = some ⟨path, line, sourceStart⟩)
    (hmark : ¬ StartsWithMark (span source sourceStart start)) :
    parseLine comment source st (placed n start l) = .ok ⟨st.fragments ++
      [⟨⟨path, baseline, sourceStart, start, location.shift start⟩, hmark⟩], none⟩ := by
  unfold parseLine
  simp only [Except.bind_eq_ok]
  refine ⟨some (.closing path baseline (location.shift start)),
    (parseMarker_closing hc).2 ⟨location, h, rfl⟩, ?_⟩
  simp only [hst, ne_eq, not_true_eq_false, if_false]
  rw [dif_neg (by exact hmark)]
  rfl

/-- What one round does when it succeeds. The line is plain, it opens a fragment where none is open,
or it closes the open one. -/
theorem parseLine_eq_ok (hc : Edge comment)
    (h : parseLine comment source st (placed n start l) = .ok st') :
    (Plain comment l ∧ st' = st) ∨
    (∃ path, OpeningContent comment path l.content ∧ st.opened = none ∧
      st' = { st with opened := some ⟨path, n, start + l.text.length⟩ }) ∨
    ∃ path baseline location line sourceStart,
      ClosingContent comment path l.content baseline location ∧
      st.opened = some ⟨path, line, sourceStart⟩ ∧
      ∃ hmark : ¬ StartsWithMark (span source sourceStart start),
        st' = ⟨st.fragments ++
          [⟨⟨path, baseline, sourceStart, start, location.shift start⟩, hmark⟩], none⟩ := by
  unfold parseLine at h
  simp only [Except.bind_eq_ok] at h
  obtain ⟨marker, hmarker, h⟩ := h
  cases marker with
  | none => exact .inl ⟨parseMarker_none.1 hmarker, (Except.pure_eq_ok.1 h).symm⟩
  | some marker =>
    cases marker with
    | opening path =>
      refine .inr (.inl ⟨path, (parseMarker_opening hc).1 hmarker, ?_⟩)
      cases hst : st.opened with
      | some opened => simp [hst] at h
      | none =>
        simp only [hst, Except.pure_eq_ok] at h
        exact ⟨rfl, h.symm⟩
    | closing path baseline location =>
      obtain ⟨location', hclosing, rfl⟩ := (parseMarker_closing hc).1 hmarker
      cases hst : st.opened with
      | none => simp [hst] at h
      | some opened =>
        obtain ⟨path', line, sourceStart⟩ := opened
        simp only [hst] at h
        split at h
        · cases h
        next hpath =>
        obtain rfl : path = path' := not_not.1 hpath
        split at h
        · cases h
        next hmark =>
        exact .inr (.inr ⟨path, baseline, location', line, sourceStart, hclosing, rfl, hmark,
          (Except.pure_eq_ok.1 h).symm⟩)

/-- Plain lines leave the state as it is. -/
theorem foldlM_plain {ls : List Line} (h : ∀ l ∈ ls, Plain comment l) :
    (place n start ls).foldlM (parseLine comment source) st = .ok st := by
  induction ls generalizing n start with
  | nil => rfl
  | cons l ls ih =>
    rw [place, List.foldlM_cons, Except.bind_eq_ok]
    exact ⟨st, parseLine_plain (h l (by simp)),
      ih fun l' hl => h l' (List.mem_cons_of_mem _ hl)⟩

end

/-! ## Sections are accepted -/

/-- The text of a range that lies behind `a` and is as long as `b`. -/
theorem span_eq {a b c : Str} : span (a ++ (b ++ c)) a.length (a.length + b.length) = b := by
  rw [span, Nat.add_sub_cancel_left, ← List.append_assoc]
  exact slice_middle a b c

/-- The loop reads the lines of a section and adds its fragment. The opening line opens it, the body
leaves it open, and the closing line stores it. -/
theorem foldlM_section {comment source before after : Str} (hc : Edge comment)
    {s : FragmentSection} (h : s.Ok comment) {n : Nat}
    (hsource : source = before ++ (joinLines s.lines ++ after)) {st : ParseState source}
    (hst : st.opened = none) :
    ∃ st', (place n before.length s.lines).foldlM (parseLine comment source) st = .ok st' ∧
      st'.opened = none ∧ st'.fragments.map (·.toFragmentPlace) =
        st.fragments.map (·.toFragmentPlace) ++ [s.place before.length] := by
  have hspan : span source (s.sourceStart before.length) (s.sourceStop before.length) =
      joinLines s.body := by
    have := @span_eq (before ++ joinLines s.gap ++ s.opening.text) (joinLines s.body)
      (s.closing.text ++ after)
    rw [hsource, s.joinLines_lines]
    simpa [FragmentSection.sourceStart, FragmentSection.sourceStop, Nat.add_assoc] using this
  unfold FragmentSection.lines
  rw [place_append]
  simp only [foldlM_append_eq_ok, place, List.foldlM_cons, Except.bind_eq_ok, place_append,
    List.foldlM_nil]
  refine ⟨_, ⟨_, foldlM_plain h.gap, _, parseLine_opening hc h.opening hst, _,
    foldlM_plain h.body, _, parseLine_closing hc h.closing rfl ?_, rfl⟩, rfl, ?_⟩
  · have hmark := h.unmarked
    rw [← hspan] at hmark
    exact hmark
  · rw [List.map_append]
    rfl

/-- The loop reads the lines of sections and adds their fragments, each at its place. The induction
is on the sections, with the text in front of them. -/
theorem foldlM_sections {comment source before after : Str} (hc : Edge comment)
    {ss : List FragmentSection} (h : ∀ s ∈ ss, s.Ok comment) {n : Nat}
    (hsource : source = before ++ (joinLines (ss.flatMap FragmentSection.lines) ++ after))
    {st : ParseState source} (hst : st.opened = none) :
    ∃ st', (place n before.length (ss.flatMap FragmentSection.lines)).foldlM
        (parseLine comment source) st = .ok st' ∧
      st'.opened = none ∧ st'.fragments.map (·.toFragmentPlace) =
        st.fragments.map (·.toFragmentPlace) ++ FragmentSection.places before.length ss := by
  induction ss generalizing before n st with
  | nil => exact ⟨st, rfl, hst, by simp [FragmentSection.places]⟩
  | cons s ss ih =>
    rw [List.flatMap_cons, joinLines_append, List.append_assoc] at hsource
    obtain ⟨st₁, h1, h2, h3⟩ := foldlM_section (n := n) hc (h s (by simp)) hsource hst
    rw [← List.append_assoc] at hsource
    obtain ⟨st₂, h4, h5, h6⟩ := ih (fun s' hs => h s' (List.mem_cons_of_mem _ hs)) hsource h2
    rw [List.length_append] at h4 h6
    refine ⟨st₂, ?_, h5, ?_⟩
    · rw [List.flatMap_cons, place_append, foldlM_append_eq_ok]
      exact ⟨st₁, h1, h4⟩
    · rw [h6, h3, FragmentSection.places]
      simp

/-! ## Accepted sources are sections -/

/-- What the loop has read of the lines `ls`: whole sections, plain lines, and possibly an opening
line with plain lines behind it. -/
def Scanned (comment : Str) {source : Str} (ls : List Line) (st : ParseState source) : Prop :=
  ∃ ss gap, (∀ s ∈ ss, FragmentSection.Ok comment s) ∧ (∀ l ∈ gap, Plain comment l) ∧
    st.fragments.map (·.toFragmentPlace) = FragmentSection.places 0 ss ∧
    ((st.opened = none ∧ ls = ss.flatMap FragmentSection.lines ++ gap) ∨
      ∃ path line o body, OpeningContent comment path o.content ∧ (∀ l ∈ body, Plain comment l) ∧
        ls = ss.flatMap FragmentSection.lines ++ gap ++ [o] ++ body ∧
        st.opened = some ⟨path, line,
          (joinLines (ss.flatMap FragmentSection.lines ++ gap ++ [o])).length⟩)

/-- One more line keeps what was read. The cases are those of the round, and in each of them it is
told whether a fragment is open. -/
theorem Scanned.step {comment source rest : Str} (hc : Edge comment) {ls : List Line} {l : Line}
    {n : Nat} {st st' : ParseState source} (h : Scanned comment ls st)
    (hsource : source = joinLines ls ++ (l.text ++ rest))
    (hl : parseLine comment source st (placed n (joinLines ls).length l) = .ok st') :
    Scanned comment (ls ++ [l]) st' := by
  obtain ⟨ss, gap, hss, hgap, hfragments, hcurrent⟩ := h
  have hsnoc : ∀ {ls : List Line}, (∀ l ∈ ls, Plain comment l) → Plain comment l →
      ∀ l' ∈ ls ++ [l], Plain comment l' := by
    intro ls hall hplain l' hl'
    rcases List.mem_append.1 hl' with hl' | hl'
    · exact hall l' hl'
    · rw [List.mem_singleton.1 hl']; exact hplain
  rcases parseLine_eq_ok hc hl with ⟨hplain, rfl⟩ | ⟨path, hopening, hnone, rfl⟩ |
    ⟨path, baseline, location, line, sourceStart, hclosing, hopened, hmark, rfl⟩
  · -- a plain line belongs to the gap or to the body
    rcases hcurrent with ⟨hnone, rfl⟩ | ⟨path, line, o, body, ho, hbody, rfl, hopened⟩
    · exact ⟨ss, gap ++ [l], hss, hsnoc hgap hplain, hfragments, .inl ⟨hnone, by simp⟩⟩
    · exact ⟨ss, gap, hss, hgap, hfragments,
        .inr ⟨path, line, o, body ++ [l], ho, hsnoc hbody hplain, by simp, hopened⟩⟩
  · -- an opening line follows the gap
    rcases hcurrent with ⟨-, rfl⟩ | ⟨_, _, _, _, -, -, -, hopened⟩
    · exact ⟨ss, gap, hss, hgap, hfragments,
        .inr ⟨path, n, l, [], hopening, by simp, by simp, by simp [Nat.add_assoc]⟩⟩
    · rw [hnone] at hopened; cases hopened
  · -- a closing line completes the section
    rcases hcurrent with ⟨hnone, -⟩ | ⟨path', line', o, body, ho, hbody, rfl, hopened'⟩
    · rw [hnone] at hopened; cases hopened
    rw [hopened'] at hopened
    cases hopened
    rw [joinLines_append _ body, List.length_append] at hmark
    have hspan := @span_eq (joinLines (ss.flatMap FragmentSection.lines ++ gap ++ [o]))
      (joinLines body) (l.text ++ rest)
    rw [joinLines_append _ body, List.append_assoc] at hsource
    rw [← hsource] at hspan
    have hunmarked := hmark
    rw [hspan] at hunmarked
    refine ⟨ss ++ [⟨gap, o, body, l, path, baseline, location⟩], [], fun s hs => ?_, by simp, ?_,
      .inl ⟨rfl, by simp [FragmentSection.lines]⟩⟩
    · rcases List.mem_append.1 hs with hs | hs
      · exact hss s hs
      · rw [List.mem_singleton.1 hs]
        exact ⟨hgap, ho, hbody, hclosing, hunmarked⟩
    · rw [List.map_append, hfragments, FragmentSection.places_append]
      simp [FragmentSection.places, FragmentSection.place, FragmentSection.sourceStop,
        FragmentSection.sourceStart, Nat.add_assoc]

/-- What the loop has read when it succeeds: sections, and possibly the begin of another one. The
induction is on the lines from the last one on, and `Scanned.step` is its step. -/
theorem scanned_of_foldlM {comment source rest : Str} (hc : Edge comment) {ls : List Line}
    {n : Nat} {st : ParseState source} (hsource : source = joinLines ls ++ rest)
    (h : (place n 0 ls).foldlM (parseLine comment source) ⟨[], none⟩ = .ok st) :
    Scanned comment ls st := by
  induction ls using List.reverseRecOn generalizing rest st with
  | nil =>
    cases h
    exact ⟨[], [], by simp, by simp, rfl, .inl ⟨rfl, rfl⟩⟩
  | append_singleton ls l ih =>
    rw [place_append, foldlM_append_eq_ok] at h
    obtain ⟨st₁, h1, h2⟩ := h
    simp only [place, List.foldlM_cons, List.foldlM_nil, bind_pure, Nat.zero_add] at h2
    rw [joinLines_append, List.append_assoc] at hsource
    exact (ih hsource h1).step hc (by simpa using hsource) h2

/-- The lines of a source are these sections with plain lines behind them, and its fragments are
those of the sections. -/
structure ParsedSource.Sections (kind : Adls.NodeKind) (p : ParsedSource)
    (ss : List FragmentSection) (tail : List Line) : Prop where
  lines : splitLines p.source = ss.flatMap FragmentSection.lines ++ tail
  ok : ∀ s ∈ ss, FragmentSection.Ok (markerComment kind) s
  tail : ∀ l ∈ tail, Plain (markerComment kind) l
  places : p.fragments.map (·.toFragmentPlace) = FragmentSection.places 0 ss

/-- The loop reads sections with plain lines behind them. Behind the last section the lines are
plain, so nothing is open at the end. -/
theorem foldlM_parseLine {kind : Adls.NodeKind} {source : Str} {ss : List FragmentSection}
    {tail : List Line} (hlines : splitLines source = ss.flatMap FragmentSection.lines ++ tail)
    (hss : ∀ s ∈ ss, FragmentSection.Ok (markerComment kind) s)
    (htail : ∀ l ∈ tail, Plain (markerComment kind) l) :
    ∃ st : ParseState source, (place 1 0 (splitLines source)).foldlM
        (parseLine (markerComment kind) source) ⟨[], none⟩ = .ok st ∧
      st.opened = none ∧
      st.fragments.map (·.toFragmentPlace) = FragmentSection.places 0 ss := by
  have hc := markerComment_edge kind
  have hjoin := joinLines_splitLines source
  rw [hlines, joinLines_append] at hjoin
  have hnil : (⟨[], none⟩ : ParseState source).opened = none := rfl
  obtain ⟨st, hfold, hst, hplaces⟩ := @foldlM_sections _ _ [] _ hc ss hss 1 hjoin.symm _ hnil
  refine ⟨st, ?_, hst, by simpa using hplaces⟩
  rw [hlines, place_append, foldlM_append_eq_ok]
  exact ⟨st, hfold, foldlM_plain htail⟩

/-- A source is accepted exactly when its lines are sections with plain lines behind them. From left
to right the loop keeps `Scanned`, and from right to left the lines of the sections are read one by
one. -/
theorem ParsedSource.parse_eq_ok {kind : Adls.NodeKind} {source : Str} {p : ParsedSource} :
    ParsedSource.parse kind source = .ok p ↔
      p.source = source ∧ ∃ ss tail, p.Sections kind ss tail := by
  have hc := markerComment_edge kind
  have hjoin := joinLines_splitLines source
  simp only [ParsedSource.parse, physicalLines_eq, Except.bind_eq_ok]
  constructor
  · intro h
    obtain ⟨st, hfold, h⟩ := h
    cases hst : st.opened with
    | some opened => simp [hst] at h
    | none =>
      simp only [hst, Except.pure_eq_ok] at h
      subst h
      obtain ⟨ss, gap, hss, hgap, hfragments, hcurrent⟩ := scanned_of_foldlM hc
        (show source = joinLines (splitLines source) ++ [] by rw [hjoin, List.append_nil]) hfold
      rcases hcurrent with ⟨-, hlines⟩ | ⟨_, _, _, _, -, -, -, hopened⟩
      · exact ⟨rfl, ss, gap, hlines, hss, hgap, hfragments⟩
      · rw [hst] at hopened; cases hopened
  · intro h
    obtain ⟨rfl, ss, tail, hlines, hss, htail, hfragments⟩ := h
    obtain ⟨st, hfold, hst, hplaces⟩ := foldlM_parseLine hlines hss htail
    have hsame : st.fragments = p.fragments :=
      List.map_injective_iff.2 ParsedFragment.toFragmentPlace_injective
        (hplaces.trans hfragments.symm)
    refine ⟨st, hfold, ?_⟩
    rw [hst, hsame]
    rfl

/-- Sections with plain lines behind them are accepted. -/
theorem ParsedSource.exists_sections {kind : Adls.NodeKind} {source : Str}
    {ss : List FragmentSection} {tail : List Line}
    (hlines : splitLines source = ss.flatMap FragmentSection.lines ++ tail)
    (hss : ∀ s ∈ ss, FragmentSection.Ok (markerComment kind) s)
    (htail : ∀ l ∈ tail, Plain (markerComment kind) l) :
    ∃ p : ParsedSource, p.source = source ∧ p.Sections kind ss tail := by
  obtain ⟨st, -, -, hplaces⟩ := foldlM_parseLine hlines hss htail
  exact ⟨⟨source, st.fragments⟩, rfl, hlines, hss, htail, hplaces⟩

/-- What the fragments at places look like in `source`. -/
def FragmentPlace.view (source : Str) (f : FragmentPlace) : FragmentView :=
  ⟨f.path, f.baseline, span source f.start f.stop⟩

/-- The fragment of a section shows its body. -/
theorem FragmentSection.view_place {source before after : Str} {s : FragmentSection}
    (h : source = before ++ (joinLines s.lines ++ after)) :
    (s.place before.length).view source = s.fragment := by
  have hspan := @span_eq (before ++ joinLines s.gap ++ s.opening.text) (joinLines s.body)
    (s.closing.text ++ after)
  simp only [FragmentPlace.view, place, fragment, FragmentView.mk.injEq, true_and]
  rw [h, s.joinLines_lines]
  simpa [sourceStart, sourceStop, Nat.add_assoc] using hspan

/-- The fragments of sections, each at its own section. The induction is on the sections, with the
text in front of them. -/
theorem FragmentSection.forall₂_places {source before after : Str} {ss : List FragmentSection}
    (h : source = before ++ (joinLines (ss.flatMap lines) ++ after)) :
    List.Forall₂ (fun f s => ∃ before after,
      source = before ++ (joinLines (lines s) ++ after) ∧ f = s.place before.length)
        (places before.length ss) ss := by
  induction ss generalizing before with
  | nil => exact .nil
  | cons s ss ih =>
    rw [List.flatMap_cons, joinLines_append, List.append_assoc] at h
    have hs : ∃ before' after', source = before' ++ (joinLines s.lines ++ after') ∧
        s.place before.length = s.place before'.length := ⟨_, _, h, rfl⟩
    rw [← List.append_assoc] at h
    have ih := ih h
    rw [List.length_append] at ih
    exact .cons hs ih

namespace ParsedSource.Sections

variable {kind : Adls.NodeKind} {p : ParsedSource} {ss : List FragmentSection} {tail : List Line}

/-- The text of a source, section by section. -/
theorem source_eq (h : p.Sections kind ss tail) :
    p.source = joinLines (ss.flatMap FragmentSection.lines) ++ joinLines tail := by
  rw [← joinLines_append, ← h.lines, joinLines_splitLines]

/-- The fragments of a source, each at its own section. -/
theorem forall₂ (h : p.Sections kind ss tail) :
    List.Forall₂ (fun f s => ∃ before after,
      p.source = before ++ (joinLines (FragmentSection.lines s) ++ after) ∧
        f.toFragmentPlace = s.place before.length) p.fragments ss := by
  have hplaces := @FragmentSection.forall₂_places p.source [] _ ss h.source_eq
  rw [List.length_nil, ← h.places, List.forall₂_map_left_iff] at hplaces
  exact hplaces

/-- What holds of each fragment and its section makes a map over the fragments one over the
sections. -/
theorem map_eq {α : Type} {g : ParsedFragment p.source → α} {g' : FragmentSection → α}
    (h : p.Sections kind ss tail)
    (hg : ∀ s ∈ ss, ∀ f before after, p.source = before ++ (joinLines s.lines ++ after) →
      f.toFragmentPlace = s.place before.length → g f = g' s) :
    p.fragments.map g = ss.map g' := by
  have hall := h.forall₂
  generalize p.fragments = fragments at hall ⊢
  clear h
  induction hall with
  | nil => rfl
  | cons hfs _ ih =>
    obtain ⟨before, after, hsource, hf⟩ := hfs
    rw [List.map_cons, List.map_cons, hg _ (by simp) _ before after hsource hf,
      ih fun s hs => hg s (List.mem_cons_of_mem _ hs)]

/-- Every fragment is the one of a section. -/
theorem exists_section (h : p.Sections kind ss tail) {f : ParsedFragment p.source}
    (hf : f ∈ p.fragments) : ∃ s ∈ ss, ∃ before after,
      p.source = before ++ (joinLines s.lines ++ after) ∧
        f.toFragmentPlace = s.place before.length :=
  exists_right_of_forall₂ h.forall₂ hf

/-- The fragments of a source show the bodies of its sections. -/
theorem view_eq (h : p.Sections kind ss tail) : p.view = ss.map FragmentSection.fragment := by
  refine h.map_eq fun s _ f before after hsource hf => ?_
  rw [← FragmentSection.view_place hsource, ← hf]
  rfl

/-- The lines of a section are valid. -/
theorem valid (h : p.Sections kind ss tail) {s : FragmentSection} (hs : s ∈ ss) :
    Valid s.lines := by
  have hv := splitLines_valid p.source
  rw [h.lines] at hv
  obtain ⟨ss₁, ss₂, rfl⟩ := List.append_of_mem hs
  rw [List.flatMap_append, List.flatMap_cons] at hv
  exact (valid_append.1 (valid_append.1 (valid_append.1 hv).1).2.1).1

end ParsedSource.Sections

end Zwirn.Fragment
