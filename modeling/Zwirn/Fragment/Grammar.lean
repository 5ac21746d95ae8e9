import Zwirn.Fragment.Parse

/-!
# The grammar of marked sources

Which sources the parser accepts, without the parser: `Grammatical` says of the physical lines of a
source that those with a marker token are adjacent pairs of an opening line and a closing line of
one path, and that no enclosed text begins with a byte-order mark. `ParsedSource.parse_exact` is the
equivalence, with what the fragments are.
-/

namespace Zwirn.Fragment

open Lib

/-! ## Hashes -/

/-- The lowercase hexadecimal digits. -/
def IsHexDigit (c : Char) : Prop := '0' ≤ c ∧ c ≤ '9' ∨ 'a' ≤ c ∧ c ≤ 'f'

instance (c : Char) : Decidable (IsHexDigit c) := inferInstanceAs (Decidable (_ ∨ _))

/-- A hash as it is written: 16 lowercase hexadecimal digits. -/
def IsHash (digits : Str) : Prop := digits.length = 16 ∧ ∀ c ∈ digits, IsHexDigit c

/-- The digit of a number is one. -/
theorem isHexDigit_hexDigit : ∀ n < 16, IsHexDigit (hexDigit n) := by decide

/-- Every digit is that of a number below 16. A decimal digit and a letter are two cases. -/
theorem IsHexDigit.exists_hexDigit {c : Char} (h : IsHexDigit c) : ∃ n < 16, c = hexDigit n := by
  have hc : ∀ a b : Char, a ≤ c → c ≤ b → a.toNat ≤ c.toNat ∧ c.toNat ≤ b.toNat := fun a b ha hb =>
    ⟨ha, hb⟩
  rcases h with ⟨ha, hb⟩ | ⟨ha, hb⟩
  · obtain ⟨ha, hb⟩ := hc _ _ ha hb
    have ha : 48 ≤ c.toNat := ha
    have hb : c.toNat ≤ 57 := hb
    refine ⟨c.toNat - 48, by omega, ?_⟩
    rw [hexDigit, if_pos (by omega), Nat.sub_add_cancel ha, Char.ofNat_toNat]
  · obtain ⟨ha, hb⟩ := hc _ _ ha hb
    have ha : 97 ≤ c.toNat := ha
    have hb : c.toNat ≤ 102 := hb
    refine ⟨c.toNat - 97 + 10, by omega, ?_⟩
    rw [hexDigit, if_neg (by omega), Nat.add_sub_cancel, Nat.sub_add_cancel ha, Char.ofNat_toNat]

/-- A byte that writes a number is its digit. The digits and the letters are compared by their
numbers. -/
theorem lowercaseHexValue_eq_some {byte : UInt8} {n : Nat} (h : lowercaseHexValue byte = some n) :
    n < 16 ∧ encode [hexDigit n] = [byte] := by
  have hn : n < 16 := by
    unfold lowercaseHexValue at h
    dsimp only at h
    split at h
    · cases h; omega
    · split at h
      · cases h; omega
      · cases h
  obtain ⟨byte', hbyte', hvalue⟩ := BaselineHash.encode_hexDigit n hn
  refine ⟨hn, ?_⟩
  rw [hbyte', List.cons.injEq]
  refine ⟨?_, rfl⟩
  rw [← UInt8.toNat_inj]
  unfold lowercaseHexValue at h hvalue
  dsimp only at h hvalue
  split at h <;> split at hvalue <;> simp_all <;> omega

namespace BaselineHash

/-- Pairs of digits are the digits of the bytes they write. The induction follows the reading, pair
by pair. -/
theorem encode_of_parsePairs {index : Nat} {value bytes : Bytes}
    (h : parsePairs index value = .ok bytes) (hlen : value.length = 2 * bytes.length) :
    value = encode (bytes.flatMap hexByte) := by
  induction index, value using parsePairs.induct generalizing bytes with
  | case1 index high low rest ih =>
    simp only [parsePairs, Except.bind_eq_ok, Except.pure_eq_ok, okOr_eq_ok] at h
    obtain ⟨a, ha, b, hb, bytes, hbytes, rfl⟩ := h
    obtain ⟨halt, ha⟩ := lowercaseHexValue_eq_some ha
    obtain ⟨hblt, hb⟩ := lowercaseHexValue_eq_some hb
    have hbyte : hexByte (UInt8.ofNat (a * 16 + b)) = [hexDigit a] ++ [hexDigit b] := by
      have hnat : (UInt8.ofNat (a * 16 + b)).toNat = a * 16 + b := by
        rw [UInt8.toNat_ofNat']
        omega
      rw [hexByte, hnat, show (a * 16 + b) / 16 = a by omega, show (a * 16 + b) % 16 = b by omega]
      rfl
    rw [List.flatMap_cons, encode_append, hbyte, encode_append, ha, hb,
      ← ih hbytes (by simp only [List.length_cons] at hlen; omega)]
    rfl
  | case2 value index hne =>
    have hnil : bytes = [] := by
      unfold parsePairs at h
      split at h
      · exact absurd rfl (hne _ _ _)
      · exact (Except.pure_eq_ok.1 h).symm
    subst hnil
    exact List.length_eq_zero_iff.1 hlen

/-- A text is read as the hash that it displays. So exactly the lowercase texts of 16 digits are
accepted. -/
theorem tryFrom_eq_ok {value : Str} {hash : BaselineHash} :
    tryFrom value = .ok hash ↔ hash.display = value := by
  refine ⟨fun h => ?_, fun h => ?_⟩
  · unfold tryFrom at h
    split at h
    · cases h
    · next hlen =>
      rw [not_not] at hlen
      split at h
      · next bytes hbytes =>
        cases h
        have henc := encode_of_parsePairs hbytes (by
          have := parsePairs_length hbytes
          rw [utf8Len] at hlen
          omega)
        exact encode_injective henc.symm
      · cases h
  · rw [← h, tryFrom_display]

/-- Each byte has two digits. -/
theorem length_flatMap_hexByte (bytes : Bytes) :
    (bytes.flatMap hexByte).length = 2 * bytes.length := by
  induction bytes with
  | nil => rfl
  | cons b bytes ih =>
    rw [List.flatMap_cons, List.length_append, ih, List.length_cons]
    show 2 + 2 * bytes.length = 2 * (bytes.length + 1)
    omega

/-- A hash is written as one. -/
theorem display_isHash (hash : BaselineHash) : IsHash hash.display := by
  refine ⟨by rw [display, length_flatMap_hexByte, hash.size], fun c hc => ?_⟩
  obtain ⟨n, hn, rfl⟩ := mem_display hc
  exact isHexDigit_hexDigit n hn

/-- Any two digits are those of a byte. -/
theorem exists_hexByte {a b : Char} (ha : IsHexDigit a) (hb : IsHexDigit b) :
    ∃ byte, hexByte byte = [a, b] := by
  obtain ⟨m, hm, rfl⟩ := ha.exists_hexDigit
  obtain ⟨n, hn, rfl⟩ := hb.exists_hexDigit
  have hnat : (UInt8.ofNat (m * 16 + n)).toNat = m * 16 + n := toNat_byte (by omega)
  refine ⟨UInt8.ofNat (m * 16 + n), ?_⟩
  rw [hexByte, hnat, show (m * 16 + n) / 16 = m by omega, show (m * 16 + n) % 16 = n by omega]

/-- Pairs of digits are the digits of some bytes. The induction is on the number of pairs. -/
theorem exists_bytes {k : Nat} {digits : Str} (hlen : digits.length = 2 * k)
    (hdigits : ∀ c ∈ digits, IsHexDigit c) :
    ∃ bytes : Bytes, bytes.length = k ∧ bytes.flatMap hexByte = digits := by
  induction k generalizing digits with
  | zero => exact ⟨[], rfl, (List.length_eq_zero_iff.1 hlen).symm⟩
  | succ k ih =>
    rcases digits with _ | ⟨a, _ | ⟨b, rest⟩⟩
    · simp at hlen
    · simp at hlen; omega
    · obtain ⟨byte, hbyte⟩ := exists_hexByte (hdigits a (by simp)) (hdigits b (by simp))
      obtain ⟨bytes, hbytes, hrest⟩ := @ih rest (by simp at hlen; omega)
        fun c hc => hdigits c (by simp [hc])
      exact ⟨byte :: bytes, by simp [hbytes], by rw [List.flatMap_cons, hbyte, hrest]; rfl⟩

/-- The written hashes are those that some hash displays. -/
theorem isHash_iff {digits : Str} : IsHash digits ↔ ∃ hash : BaselineHash, hash.display = digits := by
  refine ⟨fun h => ?_, fun h => ?_⟩
  · obtain ⟨bytes, hlen, hdigits⟩ := @exists_bytes 8 _ h.1 h.2
    exact ⟨⟨bytes, hlen⟩, hdigits⟩
  · obtain ⟨hash, rfl⟩ := h
    exact hash.display_isHash

end BaselineHash

/-! ## Marker lines -/

/-- Blanks, the comment of the kind, blanks, and a marker token that a blank or the end of the line
follows. -/
def HasMarkerToken (kind : Adls.NodeKind) (content : Str) : Prop :=
  ∃ indent spacing opening rest, Blank indent ∧ Blank spacing ∧ spacing ≠ [] ∧ Cut rest ∧
    content = indent ++ markerComment kind ++ spacing ++ tokenText opening ++ rest

/-- A line has a marker token exactly if the parser finds one in it. -/
theorem hasMarkerToken_iff {kind : Adls.NodeKind} {content : Str} :
    HasMarkerToken kind content ↔ (markerStart (markerComment kind) content).isSome := by
  have hc := markerComment_edge kind
  rw [Option.isSome_iff_exists]
  refine ⟨fun h => ?_, fun h => ?_⟩
  · obtain ⟨indent, spacing, opening, rest, h⟩ := h
    exact ⟨(opening, rest), (markerStart_eq_some hc).2 ⟨indent, spacing, h⟩⟩
  · obtain ⟨⟨opening, rest⟩, h⟩ := h
    obtain ⟨indent, spacing, h⟩ := (markerStart_eq_some hc).1 h
    exact ⟨indent, spacing, opening, rest, h⟩

instance (kind : Adls.NodeKind) (content : Str) : Decidable (HasMarkerToken kind content) :=
  decidable_of_iff _ hasMarkerToken_iff.symm

/-- A line is plain exactly if it has no marker token. -/
theorem plain_iff {kind : Adls.NodeKind} {l : Line} :
    Plain (markerComment kind) l ↔ ¬ HasMarkerToken kind l.content := by
  rw [hasMarkerToken_iff, Plain, Option.not_isSome_iff_eq_none]

/-- A marker up to its path, blanks, and possibly a hash between blanks. -/
inductive ClosingLine (comment : Str) (path : FragmentPath) : Option Str → Str → Prop
  | bare {pre tail : Str} : MarkerPrefix comment false path pre → Blank tail →
      ClosingLine comment path none (pre ++ tail)
  | hashed {pre gap digits tail : Str} : MarkerPrefix comment false path pre → Blank gap →
      gap ≠ [] → IsHash digits → Blank tail →
      ClosingLine comment path (some digits) (pre ++ gap ++ digits ++ tail)

/-- The closing lines of the grammar are those that the parser reads, with the digits of the hash
that is read. -/
theorem closingLine_iff {comment content : Str} {path : FragmentPath} {digits : Option Str} :
    ClosingLine comment path digits content ↔ ∃ baseline location,
      ClosingContent comment path content baseline location ∧
        baseline.map BaselineHash.display = digits := by
  refine ⟨fun h => ?_, fun h => ?_⟩
  · cases h with
    | bare hpre htail => exact ⟨none, _, .missing hpre htail, rfl⟩
    | hashed hpre hgap hne hdigits htail =>
      obtain ⟨hash, rfl⟩ := BaselineHash.isHash_iff.1 hdigits
      have hread := ClosingContent.present hpre hgap hne hash.display_solid hash.tryFrom_display htail
      rw [← List.append_assoc, ← List.append_assoc] at hread
      exact ⟨some hash, _, hread, rfl⟩
  · obtain ⟨baseline, location, h, rfl⟩ := h
    cases h with
    | missing hpre htail => exact .bare hpre htail
    | @present pre gap tok tail hash hpre hgap hne hsolid hread htail =>
      obtain rfl := BaselineHash.tryFrom_eq_ok.1 hread
      rw [← List.append_assoc, ← List.append_assoc]
      exact .hashed hpre hgap hne hash.display_isHash htail

/-! ## Marker pairs -/

/-- An opening and a closing marker line. -/
structure MarkerPair where
  opening : PhysicalLine
  closing : PhysicalLine
  path : FragmentPath
  hash : Option Str

/-- The text of the lines strictly between the marker lines. -/
def MarkerPair.enclosed (source : Str) (q : MarkerPair) : Str :=
  ((physicalLines source).filter fun l =>
    q.opening.number < l.number ∧ l.number < q.closing.number).flatMap fun l =>
      span source l.start l.stop

/-- The lines of the source with a marker token are these pairs, one behind the other. So a pair
closes before the next one opens. -/
structure Grammatical (kind : Adls.NodeKind) (source : Str) (pairs : List MarkerPair) : Prop where
  markers : ((physicalLines source).filter fun l => HasMarkerToken kind l.content) =
    pairs.flatMap fun q => [q.opening, q.closing]
  opening : ∀ q ∈ pairs, OpeningContent (markerComment kind) q.path q.opening.content
  closing : ∀ q ∈ pairs, ClosingLine (markerComment kind) q.path q.hash q.closing.content
  unmarked : ∀ q ∈ pairs, (q.enclosed source).head? ≠ some '\uFEFF'

/-! ### The pairs of sections -/

namespace FragmentSection

/-- The markers of a section whose first line is the line `number` and begins at `start`. -/
def pair (s : FragmentSection) (number start : Nat) : MarkerPair where
  opening := placed (number + s.gap.length) (start + (joinLines s.gap).length) s.opening
  closing := placed (number + s.gap.length + 1 + s.body.length) (s.sourceStop start) s.closing
  path := s.path
  hash := s.baseline.map BaselineHash.display

/-- The marker pairs of sections, one for each. -/
def pairs : Nat → Nat → List FragmentSection → List MarkerPair
  | _, _, [] => []
  | number, start, s :: ss =>
    s.pair number start ::
      pairs (number + s.lines.length) (start + (joinLines s.lines).length) ss

/-- A pair is the one of a section at its place. -/
theorem exists_of_mem_pairs {number start : Nat} {ss : List FragmentSection} {q : MarkerPair}
    (h : q ∈ pairs number start ss) : ∃ number start, ∃ s ∈ ss, q = s.pair number start := by
  induction ss generalizing number start with
  | nil => cases h
  | cons s ss ih =>
    rcases List.mem_cons.1 h with rfl | h
    · exact ⟨number, start, s, List.mem_cons_self, rfl⟩
    · obtain ⟨number, start, s', hs', hq⟩ := ih h
      exact ⟨number, start, s', List.mem_cons_of_mem _ hs', hq⟩

end FragmentSection

section
variable {kind : Adls.NodeKind} {number start : Nat} {ls : List Line}

/-- The marker lines among placed lines. -/
def markerLines (kind : Adls.NodeKind) (ls : List PhysicalLine) : List PhysicalLine :=
  ls.filter fun l => HasMarkerToken kind l.content

/-- The marker lines of two lists are those of the first one and then those of the second. -/
theorem markerLines_append (ls ls' : List PhysicalLine) :
    markerLines kind (ls ++ ls') = markerLines kind ls ++ markerLines kind ls' :=
  List.filter_append ls ls'

/-- Plain lines are no marker lines. -/
theorem markerLines_plain (h : ∀ l ∈ ls, Plain (markerComment kind) l) :
    markerLines kind (place number start ls) = [] := by
  induction ls generalizing number start with
  | nil => rfl
  | cons l ls ih =>
    have hl : ¬ HasMarkerToken kind l.content := plain_iff.1 (h l List.mem_cons_self)
    rw [place, markerLines, List.filter_cons_of_neg (by simpa using hl)]
    exact ih fun l' hl' => h l' (List.mem_cons_of_mem _ hl')

/-- A line with a marker token is the first marker line, and the others follow it. -/
theorem markerLines_cons (l : Line) (hl : HasMarkerToken kind l.content) :
    markerLines kind (place number start (l :: ls)) =
      placed number start l :: markerLines kind (place (number + 1) (start + l.text.length) ls) := by
  rw [place, markerLines, List.filter_cons_of_pos (by simpa using hl)]
  rfl

/-- An opening line has a marker token. -/
theorem hasMarkerToken_of_opening {path : FragmentPath} {content : Str}
    (h : OpeningContent (markerComment kind) path content) : HasMarkerToken kind content := by
  have hc := markerComment_edge kind
  obtain ⟨pre, tail, hpre, htail, hcontent⟩ := h
  obtain ⟨separator, hstart, -⟩ := markerStart_prefix hc hpre hcontent htail.cut
  rw [hasMarkerToken_iff, hstart]
  rfl

/-- A closing line has a marker token. -/
theorem hasMarkerToken_of_closing {path : FragmentPath} {content : Str}
    {baseline : Option BaselineHash} {location : HashLocation}
    (h : ClosingContent (markerComment kind) path content baseline location) :
    HasMarkerToken kind content := by
  have hread := (@parseMarker_closing _ ⟨0, 0, 0, content⟩ path (markerComment_edge kind) baseline
    (location.shift 0)).2 ⟨location, h, rfl⟩
  by_contra hno
  rw [hasMarkerToken_iff, Option.not_isSome_iff_eq_none] at hno
  rw [parseMarker_none.2 hno] at hread
  cases hread

/-- The marker lines of a section are its opening and its closing line. -/
theorem markerLines_section {s : FragmentSection} (h : s.Ok (markerComment kind)) :
    markerLines kind (place number start s.lines) =
      [(s.pair number start).opening, (s.pair number start).closing] := by
  rw [FragmentSection.lines, place_append, markerLines_append, markerLines_plain h.gap,
    List.nil_append, markerLines_cons _ (hasMarkerToken_of_opening h.opening), place_append,
    markerLines_append, markerLines_plain h.body, List.nil_append,
    markerLines_cons _ (hasMarkerToken_of_closing h.closing)]
  rfl

/-- The marker lines of sections are their pairs, one behind the other. -/
theorem markerLines_sections {ss : List FragmentSection} {tail : List Line}
    (h : ∀ s ∈ ss, FragmentSection.Ok (markerComment kind) s)
    (htail : ∀ l ∈ tail, Plain (markerComment kind) l) :
    markerLines kind (place number start (ss.flatMap FragmentSection.lines ++ tail)) =
      (FragmentSection.pairs number start ss).flatMap fun q => [q.opening, q.closing] := by
  induction ss generalizing number start with
  | nil => exact markerLines_plain htail
  | cons s ss ih =>
    rw [List.flatMap_cons, List.append_assoc, place_append, markerLines_append,
      markerLines_section (h s List.mem_cons_self), ih fun s' hs' => h s' (List.mem_cons_of_mem _ hs'),
      FragmentSection.pairs, List.flatMap_cons]

/-- The first marker line, with the plain lines in front of it. The induction is on the lines. A
line without a marker token joins the gap. -/
theorem exists_of_markerLines_eq_cons {l : PhysicalLine} {rest : List PhysicalLine}
    (h : markerLines kind (place number start ls) = l :: rest) :
    ∃ gap m later, ls = gap ++ m :: later ∧ (∀ l ∈ gap, Plain (markerComment kind) l) ∧
      l = placed (number + gap.length) (start + (joinLines gap).length) m ∧
      rest = markerLines kind (place (number + gap.length + 1)
        (start + (joinLines gap).length + m.text.length) later) := by
  induction ls generalizing number start with
  | nil => cases h
  | cons m ls ih =>
    by_cases hm : HasMarkerToken kind m.content
    · rw [markerLines_cons m hm] at h
      obtain ⟨rfl, rfl⟩ := List.cons.inj h
      exact ⟨[], m, ls, rfl, by simp, rfl, rfl⟩
    · rw [place, markerLines, List.filter_cons_of_neg (by simpa using hm)] at h
      obtain ⟨gap, m', later, rfl, hgap, rfl, rfl⟩ := ih h
      refine ⟨m :: gap, m', later, rfl, fun l hl => ?_, ?_, ?_⟩
      · rcases List.mem_cons.1 hl with rfl | hl
        · exact plain_iff.2 hm
        · exact hgap l hl
      · simp only [List.length_cons, joinLines_cons, List.length_append]
        congr 1 <;> omega
      · simp only [List.length_cons, joinLines_cons, List.length_append]
        congr 2 <;> omega

/-- Marker lines that are pairs cut the lines into sections. The induction is on the pairs: the
first marker line opens a section, the second one closes it, and what is between is its body. -/
theorem exists_sections {qs : List MarkerPair}
    (hmarkers : markerLines kind (place number start ls) = qs.flatMap fun q => [q.opening, q.closing])
    (hopening : ∀ q ∈ qs, OpeningContent (markerComment kind) q.path q.opening.content)
    (hclosing : ∀ q ∈ qs, ClosingLine (markerComment kind) q.path q.hash q.closing.content) :
    ∃ ss tail, ls = ss.flatMap FragmentSection.lines ++ tail ∧
      (∀ l ∈ tail, Plain (markerComment kind) l) ∧ qs = FragmentSection.pairs number start ss ∧
      ∀ s ∈ ss, ¬ StartsWithMark (joinLines s.body) → FragmentSection.Ok (markerComment kind) s := by
  induction qs generalizing number start ls with
  | nil =>
    refine ⟨[], ls, rfl, fun l hl => plain_iff.2 fun hm => ?_, rfl, by simp⟩
    have hcontents := place_content number start ls
    obtain ⟨l', hl', heq⟩ := List.mem_map.1 (hcontents ▸ List.mem_map_of_mem hl)
    exact absurd (heq ▸ hm) (by simpa using List.filter_eq_nil_iff.1 hmarkers l' hl')
  | cons q qs ih =>
    rw [List.flatMap_cons] at hmarkers
    obtain ⟨gap, o, ls, rfl, hgap, ho, hmarkers⟩ := exists_of_markerLines_eq_cons hmarkers
    obtain ⟨body, c, ls, rfl, hbody, hcl, hmarkers⟩ := exists_of_markerLines_eq_cons hmarkers.symm
    obtain ⟨baseline, location, hcontent, hhash⟩ := closingLine_iff.1 (hclosing q List.mem_cons_self)
    have hopen := hopening q List.mem_cons_self
    rw [ho] at hopen
    rw [hcl] at hcontent
    have hq : q = FragmentSection.pair ⟨gap, o, body, c, q.path, baseline, location⟩ number start := by
      cases q
      simp only at ho hcl hhash
      simp only [FragmentSection.pair, FragmentSection.sourceStop, FragmentSection.sourceStart, ho,
        hcl, hhash]
    obtain ⟨ss, tail, rfl, htail, hqs, hss⟩ := ih hmarkers.symm
      (fun q' hq' => hopening q' (List.mem_cons_of_mem _ hq'))
      (fun q' hq' => hclosing q' (List.mem_cons_of_mem _ hq'))
    refine ⟨⟨gap, o, body, c, q.path, baseline, location⟩ :: ss, tail, ?_, htail, ?_, fun s hs => ?_⟩
    · simp [FragmentSection.lines]
    · rw [FragmentSection.pairs, ← hq, hqs]
      congr 2
      · simp [FragmentSection.lines]
        omega
      · simp [FragmentSection.lines]
        omega
    · rcases List.mem_cons.1 hs with rfl | hs
      · exact fun hmark => ⟨hgap, hopen, hbody, hcontent, hmark⟩
      · exact hss s hs

end

/-! ### Enclosed texts -/

/-- Placed lines have the numbers from that of the first one on. -/
theorem place_number {number start : Nat} {ls : List Line} {l : PhysicalLine}
    (h : l ∈ place number start ls) : number ≤ l.number ∧ l.number < number + ls.length := by
  induction ls generalizing number start with
  | nil => cases h
  | cons m ls ih =>
    rw [List.length_cons]
    rcases List.mem_cons.1 h with rfl | h
    · dsimp only
      omega
    · have := ih h
      omega

/-- The lines between two numbers. The numbers of the placed lines in front are not above the first
number, and those behind are not below the second one. -/
theorem filter_place_between {number start a b : Nat} {front body later : List Line}
    (ha : a + 1 = number + front.length) (hb : b = number + front.length + body.length) :
    ((place number start (front ++ (body ++ later))).filter fun l => a < l.number ∧ l.number < b) =
      place (number + front.length) (start + (joinLines front).length) body := by
  have hout : ∀ {n k : Nat} {ls : List Line}, n + ls.length ≤ a + 1 ∨ b ≤ n →
      ((place n k ls).filter fun l => a < l.number ∧ l.number < b) = [] := by
    intro n k ls h
    refine List.filter_eq_nil_iff.2 fun l hl => ?_
    have := place_number hl
    simp only [decide_eq_true_eq]
    omega
  have hin : ((place (number + front.length) (start + (joinLines front).length) body).filter
      fun l => a < l.number ∧ l.number < b) =
        place (number + front.length) (start + (joinLines front).length) body := by
    refine List.filter_eq_self.2 fun l hl => ?_
    have := place_number hl
    simp only [decide_eq_true_eq]
    omega
  rw [place_append, place_append, List.filter_append, List.filter_append,
    hout (.inl ha.symm.le), hin, hout (.inr hb.le), List.nil_append, List.append_nil]

/-- The texts of placed lines. The induction is on the lines, and what is in front of them grows. -/
theorem flatMap_place {source before after : Str} {number : Nat} {ls : List Line}
    (h : source = before ++ (joinLines ls ++ after)) :
    ((place number before.length ls).flatMap fun l => span source l.start l.stop) = joinLines ls := by
  induction ls generalizing number before with
  | nil => rfl
  | cons l ls ih =>
    have hspan := @span_eq before l.text (joinLines ls ++ after)
    rw [joinLines_cons, List.append_assoc] at h
    rw [← h] at hspan
    rw [← List.append_assoc] at h
    have hrest := @ih (before ++ l.text) (number + 1) h
    rw [List.length_append] at hrest
    rw [place, List.flatMap_cons, hspan, hrest, joinLines_cons]

/-- The pair of a section encloses its body. The lines between its two numbers are those of the
body. -/
theorem FragmentSection.enclosed_pair {source : Str} {s : FragmentSection} {before after : List Line}
    (h : splitLines source = before ++ (s.lines ++ after)) :
    (s.pair (1 + before.length) (joinLines before).length).enclosed source = joinLines s.body := by
  generalize hfront : before ++ (s.gap ++ [s.opening]) = front
  have hlines : splitLines source = front ++ (s.body ++ (s.closing :: after)) := by
    rw [h, ← hfront]
    simp [lines]
  have hlength : front.length = before.length + s.gap.length + 1 := by
    rw [← hfront]
    simp only [List.length_append, List.length_singleton]
    omega
  have hsource := joinLines_splitLines source
  rw [hlines, joinLines_append, joinLines_append] at hsource
  rw [MarkerPair.enclosed, physicalLines_eq, hlines, filter_place_between, Nat.zero_add]
  · exact flatMap_place hsource.symm
  · simp only [pair, placed, hlength]
    omega
  · simp only [pair, placed, hlength]
    omega

/-- The pairs of sections, each at its own section. The induction is on the sections, with the lines
in front of them. -/
theorem FragmentSection.forall₂_pairs {source : Str} {before : List Line} {ss : List FragmentSection}
    {tail : List Line} (h : splitLines source = before ++ (ss.flatMap lines ++ tail)) :
    List.Forall₂ (fun q s => q.path = s.path ∧ q.hash = s.baseline.map BaselineHash.display ∧
      q.enclosed source = joinLines s.body)
        (pairs (1 + before.length) (joinLines before).length ss) ss := by
  induction ss generalizing before with
  | nil => exact .nil
  | cons s ss ih =>
    rw [List.flatMap_cons, List.append_assoc] at h
    have hs := enclosed_pair h
    rw [← List.append_assoc] at h
    have ih := ih h
    rw [List.length_append, joinLines_append, List.length_append, ← Nat.add_assoc] at ih
    exact .cons ⟨rfl, rfl, hs⟩ ih

/-! ## Exactness -/

/-- The fragment that a marker pair describes. -/
structure MarkerPair.Describes (source : Str) (q : MarkerPair) (f : FragmentView) : Prop where
  path : f.path = q.path
  hash : f.baseline.map BaselineHash.display = q.hash
  source : f.source = q.enclosed source

section
variable {kind : Adls.NodeKind} {source : Str}

/-- A source that was cut into sections reads as their pairs. Only the opening and the closing line
of a section have a marker token. -/
theorem Grammatical.of_sections {p : ParsedSource} {ss : List FragmentSection} {tail : List Line}
    (h : p.Sections kind ss tail) : Grammatical kind p.source (FragmentSection.pairs 1 0 ss) := by
  have hpairs := @FragmentSection.forall₂_pairs p.source [] ss tail h.lines
  have hmarkers := @markerLines_sections kind 1 0 _ _ h.ok h.tail
  rw [← h.lines, ← physicalLines_eq] at hmarkers
  refine ⟨hmarkers, fun q hq => ?_, fun q hq => ?_, fun q hq => ?_⟩
  · obtain ⟨number, start, s, hs, rfl⟩ := FragmentSection.exists_of_mem_pairs hq
    exact (h.ok s hs).opening
  · obtain ⟨number, start, s, hs, rfl⟩ := FragmentSection.exists_of_mem_pairs hq
    exact closingLine_iff.2 ⟨_, _, (h.ok s hs).closing, rfl⟩
  · obtain ⟨s, hs, -, -, henclosed⟩ := exists_right_of_forall₂ hpairs hq
    rw [henclosed]
    exact (h.ok s hs).unmarked

/-- Pairs that the source reads as come from sections of it. The marker lines cut the lines of the
source, and the bodies are unmarked as the grammar says. -/
theorem Grammatical.exists_sections {qs : List MarkerPair} (h : Grammatical kind source qs) :
    ∃ (p : ParsedSource) (ss : List FragmentSection) (tail : List Line),
      p.source = source ∧ p.Sections kind ss tail ∧ qs = FragmentSection.pairs 1 0 ss := by
  have hmarkers : markerLines kind (physicalLines source) = _ := h.markers
  rw [physicalLines_eq] at hmarkers
  obtain ⟨ss, tail, hlines, htail, rfl, hss⟩ :=
    Zwirn.Fragment.exists_sections hmarkers h.opening h.closing
  have hpairs := @FragmentSection.forall₂_pairs source [] ss tail hlines
  have hok : ∀ s ∈ ss, FragmentSection.Ok (markerComment kind) s := by
    intro s hs
    obtain ⟨q, hq, -, -, henclosed⟩ := exists_left_of_forall₂ hpairs hs
    refine hss s hs ?_
    rw [← henclosed]
    exact h.unmarked q hq
  obtain ⟨p, hsource, hp⟩ := ParsedSource.exists_sections hlines hok htail
  exact ⟨p, ss, tail, hsource, hp, rfl⟩

/-- The parser accepts exactly the marked sources: its fragments are those of the marker pairs, in
order. The grammar of marked sources is said of marker lines and their contents, without the parser.
What is read of a fragment is its path, its hash and the lines between its markers. -/
theorem ParsedSource.parse_exact (kind : Adls.NodeKind) (source : Str) :
    ((∃ p, ParsedSource.parse kind source = .ok p) ↔ ∃ pairs, Grammatical kind source pairs) ∧
    ∀ p pairs, ParsedSource.parse kind source = .ok p → Grammatical kind source pairs →
      List.Forall₂ (MarkerPair.Describes source) pairs p.view := by
  refine ⟨⟨fun h => ?_, fun h => ?_⟩, fun p pairs hp hpairs => ?_⟩
  · obtain ⟨p, hp⟩ := h
    obtain ⟨rfl, ss, tail, hsections⟩ := ParsedSource.parse_eq_ok.1 hp
    exact ⟨_, .of_sections hsections⟩
  · obtain ⟨pairs, h⟩ := h
    obtain ⟨p, ss, tail, hsource, hsections, -⟩ := h.exists_sections
    exact ⟨p, ParsedSource.parse_eq_ok.2 ⟨hsource, ss, tail, hsections⟩⟩
  · obtain ⟨p', ss, tail, hsource, hsections, rfl⟩ := hpairs.exists_sections
    have hp' := ParsedSource.parse_eq_ok.2 ⟨hsource, ss, tail, hsections⟩
    obtain rfl := Except.ok.inj (hp.symm.trans hp')
    subst hsource
    rw [hsections.view_eq, List.forall₂_map_right_iff]
    refine (@FragmentSection.forall₂_pairs p.source [] ss tail hsections.lines).imp ?_
    intro q s hq
    exact ⟨hq.1.symm, hq.2.1.symm, hq.2.2.symm⟩

end

end Zwirn.Fragment
