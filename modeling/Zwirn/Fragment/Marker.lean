import Zwirn.Adls.Layout
import Zwirn.Fragment.Path
import Zwirn.Fragment.Source

/-!
# Physical lines and markers

`physicalLines` runs the line iterator over a source and gives its lines with their places
(`physicalLines_eq`). `parseMarker` reads one line. What it accepts is said without the parser, by
the contents of opening and of closing markers (`OpeningContent`, `ClosingContent`), and it accepts
exactly these (`parseMarker_opening`, `parseMarker_closing`); it passes over a line exactly if that
does not start a marker (`parseMarker_none`). The code is in `src/fragment.rs`.
-/

namespace Zwirn.Fragment

open Lib

/-! ## Physical lines -/

/-- A line of a source with its number and the range of its text, terminator included. -/
structure PhysicalLine where
  number : Nat
  start : Nat
  stop : Nat
  content : Str
deriving DecidableEq, Repr

/-- The iterator over the lines of `source`. -/
structure PhysicalLines where
  source : Str
  next : Nat
  number : Nat

/-- The end of the line whose content is followed by `rest` at `contentEnd`. -/
def lineEnd (contentEnd : Nat) : Str → Nat
  | '\r' :: '\n' :: _ => contentEnd + 2
  | '\r' :: _ | '\n' :: _ => contentEnd + 1
  | _ => contentEnd

/-- The next line of the source and what is left of it, or nothing at its end. The content goes up
to the first character of a line end, and the line end is LF, CR LF or CR. This is `next` of the
iterator. -/
def PhysicalLines.step (lines : PhysicalLines) : Option (PhysicalLine × PhysicalLines) :=
  if lines.next = lines.source.length then none
  else
    let start := lines.next
    let content := (lines.source.drop start).takeWhile fun c => !isEol c
    let contentEnd := start + content.length
    let stop := lineEnd contentEnd (lines.source.drop contentEnd)
    some (⟨lines.number, start, stop, content⟩, { lines with next := stop, number := lines.number + 1 })

/-- The lines an iterator yields; `fuel` bounds their number. -/
def PhysicalLines.collect : Nat → PhysicalLines → List PhysicalLine
  | 0, _ => []
  | fuel + 1, lines =>
    match lines.step with
    | none => []
    | some (line, lines) => line :: collect fuel lines

/-- All lines of a source, in their order. -/
def physicalLines (source : Str) : List PhysicalLine :=
  PhysicalLines.collect source.length ⟨source, 0, 1⟩

/-- Lines with their places, the first one numbered `number` and beginning at `start`. -/
def place : Nat → Nat → List Line → List PhysicalLine
  | _, _, [] => []
  | number, start, l :: ls =>
    ⟨number, start, start + l.text.length, l.content⟩ ::
      place (number + 1) (start + l.text.length) ls

/-- The places of two lists of lines, of which the second one begins where the first one ends. -/
theorem place_append (number start : Nat) (ls ls' : List Line) :
    place number start (ls ++ ls') =
      place number start ls ++ place (number + ls.length) (start + (joinLines ls).length) ls' := by
  induction ls generalizing number start with
  | nil => simp [place]
  | cons l ls ih =>
    simp only [List.cons_append, place, ih, joinLines_cons, List.length_append, List.length_cons]
    congr 3 <;> omega

/-- The content of a line is what stands in front of the first character of a line end. -/
theorem takeWhile_content {content : Str} (h : ∀ c ∈ content, isEol c = false) {rest : Str}
    (hrest : ∀ c ∈ rest.head?, isEol c = true) :
    (content ++ rest).takeWhile (fun c => !isEol c) = content := by
  rw [List.takeWhile_append_of_pos (by simpa using h)]
  cases rest with
  | nil => simp
  | cons c rest => simp [hrest c (by simp)]

/-- The end of a line lies behind its terminator. A CR is the whole terminator only if no LF follows
it. -/
theorem lineEnd_terminator {t : Terminator} {contentEnd : Nat} {rest : Str}
    (hnone : t = .none → rest = []) (hcr : t = .cr → rest.head? ≠ some '\n') :
    lineEnd contentEnd (t.chars ++ rest) = contentEnd + t.chars.length := by
  cases t with
  | none => rw [hnone rfl]; rfl
  | lf => rfl
  | crlf => rfl
  | cr =>
    have hcr := hcr rfl
    cases rest with
    | nil => rfl
    | cons c rest =>
      rw [Terminator.chars, List.cons_append, List.nil_append, lineEnd]
      · rfl
      · intro rest' hc
        simp only [List.cons.injEq] at hc
        simp [hc.1] at hcr

/-- The iterator yields the first line of what is left. The content ends at the first character of a
line end, and a valid line has none before its terminator. -/
theorem PhysicalLines.step_eq {source : Str} {next number : Nat} {l : Line} {ls : List Line}
    (hv : Valid (l :: ls))
    (hdrop : source.drop next = joinLines (l :: ls)) :
    PhysicalLines.step ⟨source, next, number⟩ =
      some (⟨number, next, next + l.text.length, l.content⟩,
        ⟨source, next + l.text.length, number + 1⟩) := by
  obtain ⟨hnone, hcr⟩ := hv.rest
  have hpos := hv.text_length_pos
  have hlen := congrArg List.length hdrop
  rw [List.length_drop, joinLines_cons, List.length_append] at hlen
  rw [joinLines_cons, Line.text, List.append_assoc] at hdrop
  have hcontent : (source.drop next).takeWhile (fun c => !isEol c) = l.content := by
    rw [hdrop]
    refine takeWhile_content (hv.ok l (by simp)).noEol fun c hc => ?_
    cases ht : l.terminator with
    | none => simp [ht, Terminator.chars, hnone ht] at hc
    | lf | crlf | cr =>
      simp only [ht, Terminator.chars, List.cons_append, List.head?_cons, Option.mem_def,
        Option.some.injEq] at hc
      subst hc
      rfl
  have hrest : source.drop (next + l.content.length) = l.terminator.chars ++ joinLines ls := by
    rw [← List.drop_drop, hdrop, List.drop_left]
  have hstop : lineEnd (next + l.content.length) (source.drop (next + l.content.length)) =
      next + l.text.length := by
    rw [hrest, lineEnd_terminator hnone hcr, Line.text, List.length_append, Nat.add_assoc]
  unfold PhysicalLines.step
  dsimp only
  rw [if_neg (by omega), hcontent, hstop]

/-- The iterator yields the lines that are left, each at its place. The induction is on the lines,
and the fuel is enough as long as it is not below their number. -/
theorem PhysicalLines.collect_eq {source : Str} {ls : List Line} {fuel next number : Nat}
    (hle : next ≤ source.length) (hv : Valid ls) (hdrop : source.drop next = joinLines ls)
    (hfuel : ls.length ≤ fuel) :
    PhysicalLines.collect fuel ⟨source, next, number⟩ = place number next ls := by
  induction ls generalizing fuel next number with
  | nil =>
    have hend : next = source.length := by
      have := List.drop_eq_nil_iff.1 hdrop
      omega
    cases fuel with
    | zero => rfl
    | succ fuel => simp [PhysicalLines.collect, PhysicalLines.step, hend, place]
  | cons l ls ih =>
    obtain ⟨fuel, rfl⟩ : ∃ f, fuel = f + 1 := ⟨fuel - 1, by simp at hfuel; omega⟩
    have hlen := congrArg List.length hdrop
    rw [List.length_drop, joinLines_cons, List.length_append] at hlen
    have hpos := hv.text_length_pos
    rw [PhysicalLines.collect, PhysicalLines.step_eq hv hdrop, place]
    simp only [List.cons.injEq, true_and]
    refine ih (by omega) hv.tail ?_ (by simpa using hfuel)
    rw [← List.drop_drop, hdrop, joinLines_cons, List.drop_left]

/-- The iterator yields the lines of the source, each at its place. -/
theorem physicalLines_eq (source : Str) : physicalLines source = place 1 0 (splitLines source) := by
  have hj := joinLines_splitLines source
  have hle := length_le_joinLines (splitLines_valid source)
  rw [hj] at hle
  exact PhysicalLines.collect_eq (Nat.zero_le _) (splitLines_valid source)
    (by rw [hj, List.drop_zero]) hle

/-- Placing lines does not change what they hold. -/
theorem place_content (number start : Nat) (ls : List Line) :
    (place number start ls).map PhysicalLine.content = ls.map Line.content := by
  induction ls generalizing number start with
  | nil => rfl
  | cons l ls ih => rw [place, List.map_cons, List.map_cons, ih]

/-- The lines are numbered from `number` on and cover `source` from `start` to its end, one behind
the other, each with a content without line ends and a terminator. -/
def Tiles (source : Str) : Nat → Nat → List PhysicalLine → Prop
  | _, start, [] => start = source.length
  | number, start, l :: ls =>
    l.number = number ∧ l.start = start ∧ l.start < l.stop ∧
      (∀ c ∈ l.content, c ≠ '\r' ∧ c ≠ '\n') ∧
      (∃ t : Terminator, slice source l.start (l.stop - l.start) = l.content ++ t.chars) ∧
      Tiles source (number + 1) l.stop ls

/-- Placed lines lie in the source one behind the other, from the first one's start to its end. The
induction is on the lines, with what was passed in front. -/
theorem tiles_place {source before : Str} {number : Nat} {ls : List Line} (hv : Valid ls)
    (hsource : source = before ++ joinLines ls) :
    Tiles source number before.length (place number before.length ls) := by
  induction ls generalizing number before with
  | nil => rw [hsource, joinLines_nil, List.append_nil]; rfl
  | cons l ls ih =>
    have hpos := hv.text_length_pos
    have hslice := slice_middle before l.text (joinLines ls)
    rw [joinLines_cons, ← List.append_assoc] at hsource
    have htail := @ih (before ++ l.text) (number + 1) hv.tail hsource
    rw [List.length_append] at htail
    refine ⟨rfl, rfl, Nat.lt_add_of_pos_right hpos, fun c hc => ?_, ⟨l.terminator, ?_⟩, htail⟩
    · have hno := (hv.ok l List.mem_cons_self).noEol c hc
      simp only [isEol, Bool.or_eq_false_iff, decide_eq_false_iff_not] at hno
      exact hno.symm
    · rw [hsource, Nat.add_sub_cancel_left]
      exact hslice

/-- The canonicalizer and the line iterator agree on the lines of a text: the iterator's lines tile
it, and the canonical form is their contents, each ended by LF. So the canonical form has no CR, is
empty for the empty text only and ends in LF otherwise, is the same for the texts of the same
contents, and is its own canonical form. -/
theorem canonicalizeSource_physicalLines (s t : Str) :
    Tiles s 1 0 (physicalLines s) ∧
    canonicalizeSource s = (physicalLines s).flatMap (fun l => l.content ++ ['\n']) ∧
    '\r' ∉ canonicalizeSource s ∧
    (canonicalizeSource s = [] ↔ s = []) ∧
    (s ≠ [] → (canonicalizeSource s).getLast? = some '\n') ∧
    (canonicalizeSource s = canonicalizeSource t ↔
      (physicalLines s).map PhysicalLine.content = (physicalLines t).map PhysicalLine.content) ∧
    canonicalizeSource (canonicalizeSource s) = canonicalizeSource s := by
  have hidem := canonicalizeSource_idem s
  obtain ⟨hcr, hlast⟩ := canonicalizeSource_eq_self.1 hidem
  have hcontents : ∀ s, (physicalLines s).map PhysicalLine.content =
      (splitLines s).map Line.content := fun s => by rw [physicalLines_eq, place_content]
  have hnil : canonicalizeSource s = [] ↔ s = [] := by
    rw [canonicalizeSource_eq, finishLine_eq_nil, normalizeEols_eq_nil]
  refine ⟨?_, ?_, hcr, hnil, fun hne => hlast.resolve_left (mt hnil.1 hne), ⟨fun h => ?_,
    fun h => ?_⟩, hidem⟩
  · rw [physicalLines_eq]
    exact @tiles_place s [] 1 _ (splitLines_valid s) (joinLines_splitLines s).symm
  · have hflat : ∀ ls : List PhysicalLine, (ls.flatMap fun l => l.content ++ ['\n']) =
        (ls.map PhysicalLine.content).flatMap fun content => content ++ ['\n'] := fun ls => by
      rw [List.flatMap_map]
    rw [hflat, hcontents, canonicalizeSource_lines, joinLines, List.flatMap_map, List.flatMap_map]
    rfl
  · have hsplit := congrArg splitLines h
    rw [splitLines_canonicalize, splitLines_canonicalize] at hsplit
    have hmap := congrArg (List.map Line.content) hsplit
    rw [List.map_map, List.map_map] at hmap
    rw [hcontents, hcontents]
    exact hmap
  · rw [hcontents, hcontents] at h
    have hmap := congrArg (List.map fun content => (⟨content, .lf⟩ : Line)) h
    rw [List.map_map, List.map_map] at hmap
    rw [canonicalizeSource_lines, canonicalizeSource_lines]
    exact congrArg joinLines hmap

/-! ## Markers -/

/-- The place of a stored hash, or of the one to insert. -/
inductive HashLocation
  | present (start stop : Nat)
  | missing (insertion : Nat)
deriving DecidableEq, Repr

/-- A marker line: it opens a fragment, or it closes one and may store a hash. -/
inductive Marker
  | opening (path : FragmentPath)
  | closing (path : FragmentPath) (baseline : Option BaselineHash) (hashLocation : HashLocation)
deriving DecidableEq

/-- A structural marker error in one node source. -/
inductive ParseError
  | missingPath (line : Nat)
  | unexpectedTokens (line : Nat)
  | invalidPath (line : Nat) (source : FragmentPathError)
  | invalidHash (line : Nat) (source : BaselineHashError)
  | nestedOpening (line openingLine : Nat)
  | orphanedClosing (line : Nat)
  | mismatchedClosingPath (line openingLine : Nat) (expected found : FragmentPath)
  | unterminated (line : Nat) (path : FragmentPath)
  | invalidFragmentSource (line : Nat) (path : FragmentPath) (source : CanonicalSourceError)
deriving DecidableEq

/-- What starts a comment in the source of a node. -/
def markerComment : Adls.NodeKind → Str
  | .canvas | .dsp => ['-', '-']
  | .shader | .lyteDsp => ['/', '/']

/-- The blanks within a line. -/
def isHorizontal (c : Char) : Bool := c = ' ' || c = '\t'

/-- The rest of a line behind its blanks. -/
def skipHorizontal (rest : Str) : Str := rest.dropWhile isHorizontal

/-- The rest of a line up to the next blank, and from there on. -/
def token (rest : Str) : Str := rest.takeWhile fun c => !isHorizontal c

/-- The rest of a line from the next blank on. -/
def tokenEnd (rest : Str) : Str := rest.dropWhile fun c => !isHorizontal c

/-- Whether a token opens or closes a fragment, if it is a marker token. -/
def markerToken : Str → Option Bool
  | ['@', '{'] => some true
  | ['@', '}'] => some false
  | _ => none

/-- The marker token of a line: whether it opens, and what follows it. -/
def markerStart (comment content : Str) : Option (Bool × Str) :=
  let rest := skipHorizontal content
  if ¬ comment.isPrefixOf rest then none
  else
    let separator := rest.drop comment.length
    let rest := skipHorizontal separator
    if rest = separator then none
    else (markerToken (token rest)).map fun opening => (opening, tokenEnd rest)

/-- Reads the marker on a line. Instead of a position the code below carries the rest of the line,
whose position is the length of the line less its own. -/
def parseMarker (comment : Str) (line : PhysicalLine) : Except ParseError (Option Marker) :=
  match markerStart comment line.content with
  | none => pure none
  | some (opening, separator) => do
    let rest := skipHorizontal separator
    require (¬ (rest = separator ∨ rest = [])) (.missingPath line.number)
    let path ← mapError (.invalidPath line.number) (FragmentPath.tryFrom (token rest))
    let pathEnd := line.content.length - (tokenEnd rest).length
    let rest := skipHorizontal (tokenEnd rest)
    if opening then do
      require (rest = []) (.unexpectedTokens line.number)
      pure (some (.opening path))
    else if rest = [] then
      pure (some (.closing path none (.missing (line.start + pathEnd))))
    else do
      let hashStart := line.content.length - rest.length
      let hashEnd := line.content.length - (tokenEnd rest).length
      let baseline ← mapError (.invalidHash line.number) (BaselineHash.tryFrom (token rest))
      require (skipHorizontal (tokenEnd rest) = []) (.unexpectedTokens line.number)
      pure (some (.closing path (some baseline)
        (.present (line.start + hashStart) (line.start + hashEnd))))

/-! ## The grammar of markers -/

/-- All characters are blanks. -/
def Blank (s : Str) : Prop := ∀ c ∈ s, isHorizontal c = true

/-- No character is a blank. -/
def Solid (s : Str) : Prop := ∀ c ∈ s, isHorizontal c = false

/-- The text is empty or begins with a blank. -/
def Cut (s : Str) : Prop := ∀ c ∈ s.head?, isHorizontal c = true

/-- The text begins with a character that is no blank. -/
def Edge (s : Str) : Prop := ∃ c cs, s = c :: cs ∧ isHorizontal c = false

/-- Blanks begin with a blank, if there are any. -/
theorem Blank.cut {s : Str} (h : Blank s) : Cut s := fun c hc => h c (List.mem_of_mem_head? hc)

/-- A text that begins with a character that is no blank still does with more behind it. -/
theorem Edge.append {s : Str} (h : Edge s) (t : Str) : Edge (s ++ t) := by
  obtain ⟨c, cs, rfl, hc⟩ := h
  exact ⟨c, cs ++ t, rfl, hc⟩

/-- A text that begins with a character is not empty. -/
theorem Edge.ne_nil {s : Str} (h : Edge s) : s ≠ [] := by
  obtain ⟨c, cs, rfl, -⟩ := h
  simp

/-- A text without blanks begins with a character that is none, unless it is empty. -/
theorem Solid.edge {s : Str} (h : Solid s) (hne : s ≠ []) : Edge s := by
  cases s with
  | nil => exact absurd rfl hne
  | cons c cs => exact ⟨c, cs, rfl, h c (by simp)⟩

/-- Exactly the blanks in front are skipped. -/
theorem skipHorizontal_append {s t : Str} (hs : Blank s) (ht : Edge t) :
    skipHorizontal (s ++ t) = t := by
  obtain ⟨c, cs, rfl, hc⟩ := ht
  unfold skipHorizontal
  rw [List.dropWhile_append_of_pos hs, List.dropWhile_cons_of_neg (by simp [hc])]

/-- Of a text of blanks nothing is left. -/
theorem skipHorizontal_blank {s : Str} (hs : Blank s) : skipHorizontal s = [] :=
  List.dropWhile_eq_nil_iff.2 hs

/-- A text is the blanks in front and the rest behind them, which is empty or begins solid. Solid
means that no blank can be dropped from it. -/
theorem skipHorizontal_spec (s : Str) :
    ∃ blank, Blank blank ∧ s = blank ++ skipHorizontal s ∧
      (skipHorizontal s = [] ∨ Edge (skipHorizontal s)) := by
  refine ⟨s.takeWhile isHorizontal, fun c hc => List.mem_takeWhile_imp hc,
    List.takeWhile_append_dropWhile.symm, ?_⟩
  cases h : skipHorizontal s with
  | nil => exact .inl rfl
  | cons c cs =>
    refine .inr ⟨c, cs, rfl, ?_⟩
    have := List.head?_dropWhile_not isHorizontal s
    unfold skipHorizontal at h
    rw [h] at this
    simpa using this

/-- A text without blanks is a token where a blank follows it, or nothing. -/
theorem token_append {s t : Str} (hs : Solid s) (ht : Cut t) :
    token (s ++ t) = s ∧ tokenEnd (s ++ t) = t := by
  have hpos : ∀ c ∈ s, (!isHorizontal c) = true := by simpa [Solid] using hs
  unfold token tokenEnd
  rw [List.takeWhile_append_of_pos hpos, List.dropWhile_append_of_pos hpos]
  cases t with
  | nil => simp
  | cons c cs => simp [ht c (by simp)]

/-- A text is its first token and the rest behind it, which is empty or begins with a blank. -/
theorem token_spec (s : Str) : Solid (token s) ∧ s = token s ++ tokenEnd s ∧ Cut (tokenEnd s) := by
  refine ⟨fun c hc => ?_, List.takeWhile_append_dropWhile.symm, fun c hc => ?_⟩
  · simpa using List.mem_takeWhile_imp hc
  · have := List.head?_dropWhile_not (fun c => !isHorizontal c) s
    unfold tokenEnd at hc
    rw [Option.mem_def.1 hc] at this
    simpa using this

/-- No path has a blank in it. -/
theorem FragmentPath.value_solid (path : FragmentPath) : Solid path.value := by
  intro c hc
  have hno := List.any_eq_false.1 path.valid_parts.2 c hc
  by_contra h
  refine hno ?_
  simp only [isHorizontal, Bool.or_eq_false_iff, decide_eq_false_iff_not, not_and_or,
    not_not] at h
  rcases h with rfl | rfl <;> decide

/-- A path begins with a character that is no blank. -/
theorem FragmentPath.value_edge (path : FragmentPath) : Edge path.value :=
  path.value_solid.edge path.valid_parts.1

/-- No written hash has a blank in it. -/
theorem BaselineHash.display_solid (hash : BaselineHash) : Solid hash.display := by
  intro c hc
  obtain ⟨n, hn, rfl⟩ := BaselineHash.mem_display hc
  clear hc
  revert n
  decide

/-- What starts a comment begins with a character that is no blank. -/
theorem markerComment_edge (kind : Adls.NodeKind) : Edge (markerComment kind) := by
  cases kind with
  | canvas | dsp => exact ⟨'-', ['-'], rfl, rfl⟩
  | shader | lyteDsp => exact ⟨'/', ['/'], rfl, rfl⟩

/-- The tokens that open and that close a fragment. -/
def tokenText (opening : Bool) : Str := if opening then ['@', '{'] else ['@', '}']

/-- A token opens or closes a fragment exactly if it is the text for this. -/
theorem markerToken_eq_some {s : Str} {opening : Bool} :
    markerToken s = some opening ↔ s = tokenText opening := by
  unfold markerToken tokenText
  split
  · cases opening <;> simp
  · cases opening <;> simp
  · next h1 h2 => cases opening <;> simp_all

/-- The tokens have no blanks in them. -/
theorem tokenText_edge (opening : Bool) : Edge (tokenText opening) ∧ Solid (tokenText opening) := by
  cases opening with
  | false => exact ⟨⟨'@', ['}'], rfl, rfl⟩, by simp [Solid, tokenText, isHorizontal]⟩
  | true => exact ⟨⟨'@', ['{'], rfl, rfl⟩, by simp [Solid, tokenText, isHorizontal]⟩

section
variable {comment : Str} (hc : Edge comment)
include hc

/-- A line has a marker token exactly when it is blanks, the comment, blanks, and the token. The
blanks in front of the token are at least one, and the token ends at the next blank or at the end of
the line. -/
theorem markerStart_eq_some {content rest : Str} {opening : Bool} :
    markerStart comment content = some (opening, rest) ↔
      ∃ indent spacing, Blank indent ∧ Blank spacing ∧ spacing ≠ [] ∧ Cut rest ∧
        content = indent ++ comment ++ spacing ++ tokenText opening ++ rest := by
  unfold markerStart
  constructor
  · intro h
    obtain ⟨indent, hindent, hcontent, -⟩ := skipHorizontal_spec content
    dsimp only at h
    split at h
    · cases h
    next hprefix =>
    rw [not_not, List.isPrefixOf_iff_prefix] at hprefix
    obtain ⟨separator, hseparator⟩ := hprefix
    rw [← hseparator, List.drop_left] at h
    obtain ⟨spacing, hspacing, heq, -⟩ := skipHorizontal_spec separator
    split at h
    · cases h
    next hne =>
    obtain ⟨hsolid, htoken, hcut⟩ := token_spec (skipHorizontal separator)
    obtain ⟨opening', hopening, he⟩ := Option.map_eq_some_iff.1 h
    obtain ⟨rfl, rfl⟩ := Prod.mk.inj he
    rw [markerToken_eq_some] at hopening
    rw [hopening] at htoken
    refine ⟨indent, spacing, hindent, hspacing, ?_, hcut, ?_⟩
    · intro hnil
      rw [hnil] at heq
      exact hne heq.symm
    · simp only [List.append_assoc]
      rw [← htoken, ← heq, hseparator, ← hcontent]
  · intro h
    obtain ⟨indent, spacing, hindent, hspacing, hne, hcut, rfl⟩ := h
    obtain ⟨hedge, hsolid⟩ := tokenText_edge opening
    have h1 : skipHorizontal (indent ++ comment ++ spacing ++ tokenText opening ++ rest) =
        comment ++ (spacing ++ (tokenText opening ++ rest)) := by
      simp only [List.append_assoc]
      exact skipHorizontal_append hindent (hc.append _)
    have h2 : skipHorizontal (spacing ++ (tokenText opening ++ rest)) = tokenText opening ++ rest :=
      skipHorizontal_append hspacing (hedge.append _)
    obtain ⟨h3, h4⟩ := token_append hsolid hcut
    have hne' : tokenText opening ++ rest ≠ spacing ++ (tokenText opening ++ rest) := by
      intro he
      have hlen := congrArg List.length he
      have hpos := List.length_pos_iff.2 hne
      simp only [List.length_append] at hlen
      omega
    dsimp only
    rw [h1, List.drop_left, h2, if_neg (by simp), if_neg hne', h3, h4,
      markerToken_eq_some.2 rfl]
    rfl

/-- A marker up to its path. -/
def MarkerPrefix (comment : Str) (opening : Bool) (path : FragmentPath) (pre : Str) : Prop :=
  ∃ indent spacing separator, Blank indent ∧ Blank spacing ∧ spacing ≠ [] ∧ Blank separator ∧
    separator ≠ [] ∧
    pre = indent ++ comment ++ spacing ++ tokenText opening ++ separator ++ path.value

/-- What a marker token is followed by on a marker line: blanks, the path, and a rest. The path is
the token behind the blanks, since a path has no blanks in it. -/
theorem markerStart_prefix {content pre tail : Str} {opening : Bool} {path : FragmentPath}
    (h : MarkerPrefix comment opening path pre) (hcontent : content = pre ++ tail)
    (hcut : Cut tail) : ∃ separator, markerStart comment content = some (opening, separator) ∧
      skipHorizontal separator ≠ separator ∧ skipHorizontal separator ≠ [] ∧
      token (skipHorizontal separator) = path.value ∧
      tokenEnd (skipHorizontal separator) = tail := by
  obtain ⟨indent, spacing, separator, hindent, hspacing, hne, hseparator, hne', rfl⟩ := h
  have hcutSep : Cut (separator ++ (path.value ++ tail)) := by
    intro c hc'
    cases separator with
    | nil => exact absurd rfl hne'
    | cons a as =>
      obtain rfl : a = c := by simpa using hc'
      exact hseparator a (by simp)
  have hskip : skipHorizontal (separator ++ (path.value ++ tail)) = path.value ++ tail :=
    skipHorizontal_append hseparator (path.value_edge.append _)
  obtain ⟨htoken, hend⟩ := token_append path.value_solid hcut
  refine ⟨separator ++ (path.value ++ tail), (markerStart_eq_some hc).2 ⟨indent, spacing, hindent,
    hspacing, hne, hcutSep, by rw [hcontent]; simp⟩, ?_, ?_, ?_, ?_⟩
  · rw [hskip]
    intro he
    have hlen := congrArg List.length he
    have hpos := List.length_pos_iff.2 hne'
    simp only [List.length_append] at hlen
    omega
  · rw [hskip]
    simp [path.valid_parts.1]
  · rw [hskip, htoken]
  · rw [hskip, hend]

/-- A marker line with a path is a marker prefix and a rest. The blanks between its parts are those
that the scanner has skipped. -/
theorem markerPrefix_of_start {content separator : Str} {opening : Bool} {path : FragmentPath}
    (h : markerStart comment content = some (opening, separator))
    (hne : skipHorizontal separator ≠ separator)
    (hpath : path.value = token (skipHorizontal separator)) :
    ∃ pre, MarkerPrefix comment opening path pre ∧
      content = pre ++ tokenEnd (skipHorizontal separator) ∧
      Cut (tokenEnd (skipHorizontal separator)) := by
  obtain ⟨indent, spacing, hindent, hspacing, hsp, -, rfl⟩ := (markerStart_eq_some hc).1 h
  obtain ⟨gap, hgap, heq, -⟩ := skipHorizontal_spec separator
  obtain ⟨-, htoken, hcut⟩ := token_spec (skipHorizontal separator)
  refine ⟨_, ⟨indent, spacing, gap, hindent, hspacing, hsp, hgap, ?_, rfl⟩, ?_, hcut⟩
  · intro hnil
    rw [hnil] at heq
    exact hne heq.symm
  · rw [hpath]
    simp only [List.append_assoc]
    rw [← htoken, ← heq]

end

/-! ## What the parser reads -/

/-- The content of an opening marker line. -/
def OpeningContent (comment : Str) (path : FragmentPath) (content : Str) : Prop :=
  ∃ pre tail, MarkerPrefix comment true path pre ∧ Blank tail ∧ content = pre ++ tail

/-- The content of a closing marker line, with its hash and the place of the hash in it. -/
inductive ClosingContent (comment : Str) (path : FragmentPath) :
    Str → Option BaselineHash → HashLocation → Prop
  | missing {pre tail : Str} : MarkerPrefix comment false path pre → Blank tail →
      ClosingContent comment path (pre ++ tail) none (.missing pre.length)
  | present {pre gap tok tail : Str} {hash : BaselineHash} : MarkerPrefix comment false path pre →
      Blank gap → gap ≠ [] → Solid tok → BaselineHash.tryFrom tok = .ok hash → Blank tail →
      ClosingContent comment path (pre ++ (gap ++ (tok ++ tail))) (some hash)
        (.present (pre.length + gap.length) (pre.length + gap.length + tok.length))

/-- A place in a line as a place in its source. -/
def HashLocation.shift (start : Nat) : HashLocation → HashLocation
  | .present a b => .present (start + a) (start + b)
  | .missing a => .missing (start + a)

/-- What is read as a hash is not empty. -/
theorem BaselineHash.ne_nil_of_tryFrom {value : Str} {hash : BaselineHash}
    (h : BaselineHash.tryFrom value = .ok hash) : value ≠ [] := by
  rintro rfl
  unfold BaselineHash.tryFrom at h
  rw [dif_pos (by decide)] at h
  cases h

section
variable {comment : Str} {line : PhysicalLine} {path : FragmentPath}

/-- A line is passed over exactly if it does not start a marker. Every other line is a marker or an
error. -/
theorem parseMarker_none :
    parseMarker comment line = .ok none ↔ markerStart comment line.content = none := by
  unfold parseMarker
  cases markerStart comment line.content with
  | none => simp
  | some start =>
    obtain ⟨opening, separator⟩ := start
    refine iff_of_false (fun h => ?_) (by simp)
    simp only [Except.bind_eq_ok] at h
    obtain ⟨_, _, path, _, h⟩ := h
    split at h
    · simp only [Except.bind_eq_ok, Except.pure_eq_ok] at h
      obtain ⟨_, _, h⟩ := h
      cases h
    · split at h
      · cases Except.pure_eq_ok.1 h
      · simp only [Except.bind_eq_ok, Except.pure_eq_ok] at h
        obtain ⟨_, _, _, _, h⟩ := h
        cases h

/-- A line is read as an opening marker exactly if it has the content of one. What follows the path
is blank, for otherwise the line is refused. -/
theorem parseMarker_opening (hc : Edge comment) :
    parseMarker comment line = .ok (some (.opening path)) ↔
      OpeningContent comment path line.content := by
  constructor
  · intro h
    unfold parseMarker at h
    cases hstart : markerStart comment line.content with
    | none => simp [hstart] at h
    | some start =>
      obtain ⟨opening, separator⟩ := start
      simp only [hstart, Except.bind_eq_ok, require_eq_ok, mapError_eq_ok,
        FragmentPath.tryFrom_eq_ok, not_or] at h
      obtain ⟨_, ⟨hne, -⟩, path', hpath, h⟩ := h
      cases opening with
      | false =>
        simp only [Bool.false_eq_true, if_false] at h
        split at h
        · cases Except.pure_eq_ok.1 h
        · simp only [Except.bind_eq_ok, Except.pure_eq_ok] at h
          obtain ⟨_, _, _, _, h⟩ := h
          cases h
      | true =>
        simp only [if_true, Except.bind_eq_ok, require_eq_ok, Except.pure_eq_ok] at h
        obtain ⟨_, hblank, h⟩ := h
        cases h
        obtain ⟨pre, hpre, hcontent, -⟩ := markerPrefix_of_start hc hstart hne hpath
        exact ⟨pre, _, hpre, List.dropWhile_eq_nil_iff.1 hblank, hcontent⟩
  · intro h
    obtain ⟨pre, tail, hpre, htail, hcontent⟩ := h
    obtain ⟨separator, hstart, hne, hnil, htoken, hend⟩ :=
      markerStart_prefix hc hpre hcontent htail.cut
    unfold parseMarker
    simp only [hstart, Except.bind_eq_ok, require_eq_ok, mapError_eq_ok,
      FragmentPath.tryFrom_eq_ok, not_or]
    refine ⟨(), ⟨hne, hnil⟩, path, htoken.symm, ?_⟩
    simp only [if_true, Except.bind_eq_ok, require_eq_ok, Except.pure_eq_ok]
    exact ⟨(), by rw [hend]; exact skipHorizontal_blank htail, trivial⟩

/-- A line is read as a closing marker exactly if it has the content of one, with this hash; the
place of the hash is found in the line, and moved to where the line begins. -/
theorem parseMarker_closing (hc : Edge comment) {baseline : Option BaselineHash}
    {location : HashLocation} :
    parseMarker comment line = .ok (some (.closing path baseline location)) ↔
      ∃ location', ClosingContent comment path line.content baseline location' ∧
        location = location'.shift line.start := by
  constructor
  · intro h
    unfold parseMarker at h
    cases hstart : markerStart comment line.content with
    | none => simp [hstart] at h
    | some start =>
      obtain ⟨opening, separator⟩ := start
      simp only [hstart, Except.bind_eq_ok, require_eq_ok, mapError_eq_ok,
        FragmentPath.tryFrom_eq_ok, not_or] at h
      obtain ⟨_, ⟨hne, -⟩, path', hpath, h⟩ := h
      obtain ⟨pre, hpre, hcontent, hcut⟩ := markerPrefix_of_start hc hstart hne hpath
      cases opening with
      | true =>
        simp only [if_true, Except.bind_eq_ok, Except.pure_eq_ok] at h
        obtain ⟨_, _, h⟩ := h
        cases h
      | false =>
        simp only [Bool.false_eq_true, if_false] at h
        generalize tokenEnd (skipHorizontal separator) = rest at h hcontent hcut
        obtain ⟨gap, hgap, hrest, hedge⟩ := skipHorizontal_spec rest
        split at h
        · next hnil =>
          -- no hash
          cases Except.pure_eq_ok.1 h
          rw [hcontent]
          refine ⟨_, .missing hpre (List.dropWhile_eq_nil_iff.1 hnil), ?_⟩
          rw [HashLocation.shift, List.length_append, Nat.add_sub_cancel]
        · next hnil =>
          simp only [Except.bind_eq_ok, require_eq_ok, mapError_eq_ok, Except.pure_eq_ok] at h
          obtain ⟨hash, hhash, _, hblank, h⟩ := h
          cases h
          have hedge := hedge.resolve_left hnil
          have hgapne : gap ≠ [] := by
            intro hg
            rw [hg, List.nil_append] at hrest
            obtain ⟨c, cs, hcs, hno⟩ := hedge
            rw [hcs] at hrest
            have := hcut c (by rw [hrest]; simp)
            rw [hno] at this
            cases this
          generalize skipHorizontal rest = hashed at hrest hhash hblank
          obtain ⟨hsolid, htok, -⟩ := token_spec hashed
          have hlen := congrArg List.length htok
          have hall : line.content = pre ++ (gap ++ (token hashed ++ tokenEnd hashed)) := by
            rw [← htok, ← hrest, hcontent]
          have hlen' := congrArg List.length hall
          simp only [List.length_append] at hlen hlen'
          refine ⟨.present (pre.length + gap.length)
            (pre.length + gap.length + (token hashed).length), ?_, ?_⟩
          · rw [hall]
            exact .present hpre hgap hgapne hsolid hhash (List.dropWhile_eq_nil_iff.1 hblank)
          · simp only [HashLocation.shift, HashLocation.present.injEq]
            omega
  · intro h
    obtain ⟨location', hclosing, rfl⟩ := h
    unfold parseMarker
    generalize hcontent : line.content = content at hclosing
    cases hclosing with
    | @missing pre tail hpre htail =>
      obtain ⟨separator, hstart, hne, hnil, htoken, hend⟩ :=
        markerStart_prefix hc hpre rfl htail.cut
      simp only [hstart, Except.bind_eq_ok, require_eq_ok, mapError_eq_ok,
        FragmentPath.tryFrom_eq_ok, not_or]
      refine ⟨(), ⟨hne, hnil⟩, path, htoken.symm, ?_⟩
      rw [hend, skipHorizontal_blank htail]
      simp [HashLocation.shift]
    | @present pre gap tok tail hash hpre hgap hgapne hsolid hhash htail =>
      have hcut : Cut (gap ++ (tok ++ tail)) := by
        intro c hc'
        cases gap with
        | nil => exact absurd rfl hgapne
        | cons a as =>
          obtain rfl : a = c := by simpa using hc'
          exact hgap a (by simp)
      have hedge : Edge tok := hsolid.edge (BaselineHash.ne_nil_of_tryFrom hhash)
      obtain ⟨separator, hstart, hne, hnil, htoken, hend⟩ :=
        markerStart_prefix hc hpre rfl hcut
      obtain ⟨htok, htokEnd⟩ := token_append hsolid htail.cut
      have hskip : skipHorizontal (gap ++ (tok ++ tail)) = tok ++ tail :=
        skipHorizontal_append hgap (hedge.append _)
      simp only [hstart, Except.bind_eq_ok, require_eq_ok, mapError_eq_ok,
        FragmentPath.tryFrom_eq_ok, not_or]
      refine ⟨(), ⟨hne, hnil⟩, path, htoken.symm, ?_⟩
      rw [hend, hskip, htok, htokEnd, skipHorizontal_blank htail,
        if_neg (by simp), if_neg (hedge.append _).ne_nil]
      simp only [Except.bind_eq_ok, require_eq_ok, mapError_eq_ok, Except.pure_eq_ok]
      refine ⟨hash, hhash, (), trivial, ?_⟩
      simp only [HashLocation.shift, List.length_append, Option.some.injEq, Marker.closing.injEq,
        HashLocation.present.injEq, true_and]
      omega

/-- The text that stores a hash at its place. -/
def HashLocation.storedText (hash : BaselineHash) : HashLocation → Str
  | .present _ _ => hash.display
  | .missing _ => ' ' :: hash.display

/-- The range of a source that storing a hash replaces. -/
def HashLocation.range : HashLocation → Nat × Nat
  | .present a b => (a, b)
  | .missing a => (a, a)

/-- A closing line with another hash at the place of the hash closes the same fragment with it. The
hash is replaced at its place, or put behind the path if there was none. -/
theorem ClosingContent.store {content : Str} {baseline : Option BaselineHash}
    {location : HashLocation} (h : ClosingContent comment path content baseline location)
    (hash : BaselineHash) : ∃ location', ClosingContent comment path
      (content.take location.range.1 ++ location.storedText hash ++
        content.drop location.range.2) (some hash) location' := by
  have hread := BaselineHash.tryFrom_display hash
  have hsolid := hash.display_solid
  cases h with
  | @missing pre tail hpre htail =>
    have hstored := ClosingContent.present hpre (show Blank [' '] by simp [Blank, isHorizontal])
      (by simp) hsolid hread htail
    exact ⟨_, by simpa [HashLocation.range, HashLocation.storedText] using hstored⟩
  | @present pre gap tok tail hash' hpre hgap hgapne _ _ htail =>
    have hstored := ClosingContent.present hpre hgap hgapne hsolid hread htail
    refine ⟨.present (pre.length + gap.length)
      (pre.length + gap.length + hash.display.length), ?_⟩
    simp only [HashLocation.range, HashLocation.storedText]
    have htake : (pre ++ (gap ++ (tok ++ tail))).take (pre.length + gap.length) = pre ++ gap := by
      rw [← List.append_assoc, ← List.length_append, List.take_left]
    have hdrop : (pre ++ (gap ++ (tok ++ tail))).drop (pre.length + gap.length + tok.length) =
        tail := by
      rw [← List.append_assoc, ← List.append_assoc, ← List.length_append, ← List.length_append,
        List.drop_left]
    rw [htake, hdrop]
    simpa using hstored

end

end Zwirn.Fragment
