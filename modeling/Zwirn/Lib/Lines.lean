import Zwirn.Lib.Utf8

/-!
# Lines of a text

A line is a content without line ends and the terminator behind it: LF, CRLF, a lone CR, or none
at the end of the text. `splitLines` cuts a text into lines. Which lists of lines arise is a local
condition (`Valid`): such a list is the split of its own text (`splitLines_joinLines`), so the split
of a text that was put together from lines is found by exhibiting them.
-/

namespace Lib

/-- The characters of line ends. -/
def isEol (c : Char) : Bool := c = '\n' || c = '\r'

/-- How a line ends: at the end of the text, or with one of the three line ends. -/
inductive Terminator
  | none
  | lf
  | crlf
  | cr
deriving DecidableEq, Repr

/-- The characters of a line end. -/
def Terminator.chars : Terminator → Str
  | .none => []
  | .lf => ['\n']
  | .crlf => ['\r', '\n']
  | .cr => ['\r']

/-- A line: what it holds, and how it ends. -/
structure Line where
  content : Str
  terminator : Terminator
deriving DecidableEq, Repr

/-- The text of a line with its line end. -/
def Line.text (l : Line) : Str := l.content ++ l.terminator.chars

/-- The text that lines make up. -/
def joinLines (ls : List Line) : Str := ls.flatMap Line.text

/-- Puts a character in front of the first line. -/
def consChar (c : Char) : List Line → List Line
  | [] => [⟨[c], .none⟩]
  | l :: ls => { l with content := c :: l.content } :: ls

/-- The lines of a text. -/
def splitLines : Str → List Line
  | [] => []
  | '\n' :: cs => ⟨[], .lf⟩ :: splitLines cs
  | '\r' :: '\n' :: cs => ⟨[], .crlf⟩ :: splitLines cs
  | '\r' :: cs => ⟨[], .cr⟩ :: splitLines cs
  | c :: cs => consChar c (splitLines cs)

/-- No lines make up the empty text. -/
@[simp] theorem joinLines_nil : joinLines [] = [] := rfl

/-- Lines make up the text of the first one and then that of the others. -/
@[simp] theorem joinLines_cons (l : Line) (ls : List Line) :
    joinLines (l :: ls) = l.text ++ joinLines ls := rfl

/-- Lists of lines are joined one behind the other. -/
@[simp] theorem joinLines_append (ls ls' : List Line) :
    joinLines (ls ++ ls') = joinLines ls ++ joinLines ls' := List.flatMap_append

/-- Lists of lines that are put together are joined each for itself. -/
theorem joinLines_flatMap {α : Type} (f : α → List Line) (l : List α) :
    joinLines (l.flatMap f) = l.flatMap fun a => joinLines (f a) := List.flatMap_assoc

/-! ## Valid lists of lines -/

/-- The line is an empty content with LF behind it, so its text starts with LF. -/
def Line.StartsLf (l : Line) : Prop := l.content = [] ∧ l.terminator = .lf

/-- A line that a split may produce. -/
structure Line.Ok (l : Line) : Prop where
  noEol : ∀ c ∈ l.content, isEol c = false
  nonempty : l.terminator = .none → l.content ≠ []

/-- A line that a split may produce behind `a`. -/
def Line.Follows (a b : Line) : Prop :=
  a.terminator ≠ .none ∧ (a.terminator = .cr → ¬ b.StartsLf)

/-- The lists of lines that splits produce. -/
structure Valid (ls : List Line) : Prop where
  ok : ∀ l ∈ ls, l.Ok
  chain : ls.IsChain Line.Follows

/-- No lines are a valid list. -/
theorem Valid.nil : Valid [] := ⟨by simp, .nil⟩

/-- The lines behind the first one of a valid list are one. -/
theorem Valid.tail {l : Line} {ls : List Line} (h : Valid (l :: ls)) : Valid ls :=
  ⟨fun l' hl => h.ok l' (List.mem_cons_of_mem _ hl), h.chain.tail⟩

/-- A list is valid exactly if both of its parts are, and the second one may follow the first
one. -/
theorem valid_append {ls ls' : List Line} : Valid (ls ++ ls') ↔
    Valid ls ∧ Valid ls' ∧ ∀ a ∈ ls.getLast?, ∀ b ∈ ls'.head?, a.Follows b := by
  constructor
  · intro h
    obtain ⟨h1, h2, h3⟩ := List.isChain_append.1 h.chain
    exact ⟨⟨fun l hl => h.ok l (List.mem_append_left _ hl), h1⟩,
      ⟨fun l hl => h.ok l (List.mem_append_right _ hl), h2⟩, h3⟩
  · intro h
    obtain ⟨h1, h2, h3⟩ := h
    refine ⟨fun l hl => ?_, List.isChain_append.2 ⟨h1.chain, h2.chain, h3⟩⟩
    rcases List.mem_append.1 hl with hl | hl
    · exact h1.ok l hl
    · exact h2.ok l hl

/-- A list is valid exactly if its first line is one that a split may produce, the others are a
valid list, and may follow the first line. -/
theorem valid_cons {l : Line} {ls : List Line} : Valid (l :: ls) ↔
    l.Ok ∧ Valid ls ∧ ∀ b ∈ ls.head?, l.Follows b := by
  have := @valid_append [l] ls
  simp only [List.singleton_append, List.getLast?_singleton, Option.mem_def, Option.some.injEq,
    forall_eq'] at this
  rw [this]
  refine and_congr_left fun _ => ⟨fun h => h.ok l (by simp), fun h => ⟨by simpa using h, ?_⟩⟩
  exact List.isChain_singleton l

/-- The text of a valid list starts with LF exactly when its first line does. A line that starts
with LF has nothing but its line end. -/
theorem Line.Ok.head_lf {l : Line} (h : l.Ok) (rest : Str) :
    (l.text ++ rest).head? = some '\n' ↔ l.StartsLf := by
  obtain ⟨content, terminator⟩ := l
  cases content with
  | cons c cs =>
    have hc : isEol c = false := h.noEol c (by simp)
    simp only [isEol, Bool.or_eq_false_iff, decide_eq_false_iff_not] at hc
    simp [Line.text, Line.StartsLf, hc.1]
  | nil =>
    cases terminator with
    | none => exact absurd rfl (h.nonempty rfl)
    | lf | crlf | cr => simp [Line.text, Line.StartsLf, Terminator.chars]

/-- A text ends with CR exactly when its last line ends with a lone CR. No character of a line is a
line end. -/
theorem Line.Ok.getLast_cr {l : Line} (h : l.Ok) (before : Str) :
    (before ++ l.text).getLast? = some '\r' ↔ l.terminator = .cr := by
  obtain ⟨content, terminator⟩ := l
  cases terminator with
  | lf | crlf | cr => simp [Line.text, Terminator.chars]
  | none =>
    have hne : content ≠ [] := h.nonempty rfl
    simp only [Line.text, Terminator.chars, List.append_nil, reduceCtorEq, iff_false]
    rw [List.getLast?_append_of_ne_nil _ hne, List.getLast?_eq_some_getLast hne, Option.some.injEq]
    intro heq
    have hno := h.noEol _ (List.getLast_mem hne)
    rw [heq] at hno
    cases hno

/-- What follows a line of a valid list. -/
theorem Valid.rest {l : Line} {ls : List Line} (h : Valid (l :: ls)) :
    (l.terminator = .none → joinLines ls = []) ∧
      (l.terminator = .cr → (joinLines ls).head? ≠ some '\n') := by
  cases ls with
  | nil => exact ⟨fun _ => rfl, fun _ => by simp⟩
  | cons l' ls =>
    obtain ⟨hne, hlf⟩ := (List.isChain_cons_cons.1 h.chain).1
    refine ⟨fun ht => absurd ht hne, fun ht => ?_⟩
    rw [joinLines_cons, ne_eq, (h.ok l' (by simp)).head_lf]
    exact hlf ht

/-- A line of a valid list has at least one character. -/
theorem Valid.text_length_pos {l : Line} {ls : List Line} (h : Valid (l :: ls)) :
    0 < l.text.length := by
  have hok := h.ok l (by simp)
  obtain ⟨content, terminator⟩ := l
  cases terminator with
  | none => simpa [Line.text, Terminator.chars, List.length_pos_iff] using hok.nonempty rfl
  | lf | crlf | cr => simp [Line.text, Terminator.chars]

/-- A valid list has no more lines than its text has characters. -/
theorem length_le_joinLines {ls : List Line} (h : Valid ls) : ls.length ≤ (joinLines ls).length := by
  induction ls with
  | nil => exact Nat.le_refl _
  | cons l ls ih =>
    have := ih h.tail
    have := h.text_length_pos
    rw [joinLines_cons, List.length_append, List.length_cons]
    omega

/-! ## Splitting -/

/-- A character that is no line end belongs to the first line. -/
theorem splitLines_cons {c : Char} (h : isEol c = false) (cs : Str) :
    splitLines (c :: cs) = consChar c (splitLines cs) := by
  simp only [isEol, Bool.or_eq_false_iff, decide_eq_false_iff_not] at h
  rw [splitLines]
  · exact h.1
  · intro _ hc; exact absurd hc h.2
  · exact h.2

/-- A CR that no LF follows ends a line. -/
theorem splitLines_cr {cs : Str} (h : cs.head? ≠ some '\n') :
    splitLines ('\r' :: cs) = ⟨[], .cr⟩ :: splitLines cs := by
  cases cs with
  | nil => rfl
  | cons c cs =>
    rw [splitLines]
    intro cs' hc
    simp at hc
    simp [hc.1] at h

/-- A text without line ends is one line. -/
theorem splitLines_content {s : Str} (h : ∀ c ∈ s, isEol c = false) (hne : s ≠ []) :
    splitLines s = [⟨s, .none⟩] := by
  induction s with
  | nil => exact absurd rfl hne
  | cons c cs ih =>
    rw [splitLines_cons (h c (by simp))]
    cases cs with
    | nil => rfl
    | cons c' cs =>
      rw [ih (fun c hc => h c (List.mem_cons_of_mem _ hc)) (by simp)]
      rfl

/-- A terminated line in front of a text that does not merge with it. The only merge is that of a CR
with an LF behind it. -/
theorem splitLines_line {l : Line} (hok : l.Ok) (ht : l.terminator ≠ .none) {rest : Str}
    (hrest : l.terminator = .cr → rest.head? ≠ some '\n') :
    splitLines (l.text ++ rest) = l :: splitLines rest := by
  obtain ⟨content, terminator⟩ := l
  have hempty : splitLines (terminator.chars ++ rest) = ⟨[], terminator⟩ :: splitLines rest := by
    cases terminator with
    | none => exact absurd rfl ht
    | lf => rfl
    | crlf => rfl
    | cr => exact splitLines_cr (hrest rfl)
  have hno := hok.noEol
  clear hok hrest
  induction content with
  | nil => simpa [Line.text] using hempty
  | cons c cs ih =>
    have := ih ht fun c hc => hno c (List.mem_cons_of_mem _ hc)
    simp only [Line.text, List.append_assoc, List.cons_append] at this ⊢
    rw [splitLines_cons (hno c (by simp)), this]
    rfl

/-- A valid list of lines is the split of its text. So a text and its lines determine each other.
The induction is on the lines, and the last one may have no terminator. -/
theorem splitLines_joinLines {ls : List Line} (h : Valid ls) : splitLines (joinLines ls) = ls := by
  induction ls with
  | nil => rfl
  | cons l ls ih =>
    have hok : l.Ok := h.ok l (by simp)
    have ih := ih h.tail
    by_cases ht : l.terminator = .none
    · -- an unterminated line is the last one
      have hnil : ls = [] := by
        cases ls with
        | nil => rfl
        | cons l' ls => exact absurd ht (List.isChain_cons_cons.1 h.chain).1.1
      subst hnil
      obtain ⟨content, terminator⟩ := l
      cases ht
      simpa [Line.text, Terminator.chars] using
        splitLines_content hok.noEol (hok.nonempty rfl)
    · rw [joinLines_cons, splitLines_line hok ht, ih]
      intro hcr
      cases ls with
      | nil => simp
      | cons l' ls =>
        rw [joinLines_cons, ne_eq, (h.tail.ok l' (by simp)).head_lf]
        exact (List.isChain_cons_cons.1 h.chain).1.2 hcr

/-- A character in front of the first line stands in front of the text. -/
theorem joinLines_consChar (c : Char) (ls : List Line) :
    joinLines (consChar c ls) = c :: joinLines ls := by
  cases ls <;> rfl

/-- The lines of a text make up the text: nothing is lost between them. The induction follows the
splitting. -/
theorem joinLines_splitLines (s : Str) : joinLines (splitLines s) = s := by
  induction s using splitLines.induct with
  | case1 => rfl
  | case2 cs ih => simp [splitLines, Line.text, Terminator.chars, ih]
  | case3 cs ih => simp [splitLines, Line.text, Terminator.chars, ih]
  | case4 cs hne ih =>
    have hh : cs.head? ≠ some '\n' := by
      cases cs with
      | nil => simp
      | cons c cs => intro hc; simp at hc; exact hne cs (by rw [hc])
    rw [splitLines_cr hh]
    simp [Line.text, Terminator.chars, ih]
  | case5 c cs h1 h2 h3 ih =>
    rw [splitLines_cons (by simpa [isEol] using ⟨h1, h3⟩), joinLines_consChar, ih]

/-- A character in front of the first line keeps a list valid. -/
theorem Valid.consChar {c : Char} (hc : isEol c = false) {ls : List Line} (h : Valid ls) :
    Valid (consChar c ls) := by
  cases ls with
  | nil => exact ⟨by simpa [Lib.consChar] using ⟨by simpa using hc, by simp⟩, .singleton _⟩
  | cons l ls =>
    obtain ⟨hok, hls, hfollow⟩ := valid_cons.1 h
    refine valid_cons.2 ⟨⟨fun c' hc' => ?_, by simp⟩, hls, hfollow⟩
    rcases List.mem_cons.1 hc' with rfl | hc'
    · exact hc
    · exact hok.noEol c' hc'

/-- An empty line with a terminator in front keeps a list valid, but for CR before LF. -/
theorem Valid.cons_empty {t : Terminator} (ht : t ≠ .none) {ls : List Line} (h : Valid ls)
    (hcr : t = .cr → ∀ b ∈ ls.head?, ¬ b.StartsLf) : Valid (⟨[], t⟩ :: ls) :=
  valid_cons.2 ⟨⟨by simp, fun h => absurd h ht⟩, h, fun b hb => ⟨ht, fun hc => hcr hc b hb⟩⟩

/-- Every split is valid. The induction follows the splitting. -/
theorem splitLines_valid (s : Str) : Valid (splitLines s) := by
  induction s using splitLines.induct with
  | case1 => exact .nil
  | case2 cs ih => exact ih.cons_empty (by simp) (by simp)
  | case3 cs ih => exact ih.cons_empty (by simp) (by simp)
  | case4 cs hne ih =>
    have hh : cs.head? ≠ some '\n' := by
      cases cs with
      | nil => simp
      | cons c cs => intro hc; simp at hc; exact hne cs (by rw [hc])
    rw [splitLines_cr hh]
    refine ih.cons_empty (by simp) fun _ b hb hlf => hh ?_
    have hjoin := joinLines_splitLines cs
    obtain ⟨ls, hls⟩ := List.head?_eq_some_iff.1 hb
    rw [hls] at hjoin
    rw [← hjoin, joinLines_cons]
    exact ((ih.ok b (by simp [hls])).head_lf _).2 hlf
  | case5 c cs h1 h2 h3 ih =>
    have hc : isEol c = false := by simpa [isEol] using ⟨h1, h3⟩
    rw [splitLines_cons hc]
    exact ih.consChar hc

/-- A list of lines is the split of a text exactly when it is valid and has that text. -/
theorem splitLines_eq_iff {s : Str} {ls : List Line} :
    splitLines s = ls ↔ Valid ls ∧ joinLines ls = s := by
  constructor
  · intro h
    subst h
    exact ⟨splitLines_valid s, joinLines_splitLines s⟩
  · intro h
    rw [← h.2, splitLines_joinLines h.1]

/-- The line with LF behind it. -/
def Line.withLf (l : Line) : Line := ⟨l.content, .lf⟩

/-- The text of a line that is ended by LF. -/
@[simp] theorem Line.withLf_text (l : Line) : l.withLf.text = l.content ++ ['\n'] := rfl

/-- A split stays one when every line is ended by LF. -/
theorem splitLines_withLf (s : Str) :
    splitLines (joinLines ((splitLines s).map Line.withLf)) = (splitLines s).map Line.withLf := by
  refine splitLines_joinLines ⟨?_, ?_⟩
  · rw [List.forall_mem_map]
    intro l hl
    refine ⟨((splitLines_valid s).ok l hl).noEol, fun h => ?_⟩
    cases h
  · rw [List.isChain_map]
    refine (splitLines_valid s).chain.imp fun a b _ => ⟨fun h => ?_, fun h => ?_⟩
    · cases h
    · cases h

/-- A text that is not empty has a line. -/
theorem splitLines_ne_nil {s : Str} (h : s ≠ []) : splitLines s ≠ [] := by
  intro hnil
  have hjoin := joinLines_splitLines s
  rw [hnil] at hjoin
  exact h hjoin.symm

/-! ## Replacing lines -/

/-- The first line of a split starts with LF exactly when the text does. -/
theorem splitLines_head {s : Str} {b : Line} (h : b ∈ (splitLines s).head?) :
    b.StartsLf ↔ s.head? = some '\n' := by
  obtain ⟨ls, hls⟩ := List.head?_eq_some_iff.1 h
  have hjoin := joinLines_splitLines s
  have hok := (splitLines_valid s).ok b (by simp [hls])
  rw [hls, joinLines_cons] at hjoin
  rw [← hjoin, hok.head_lf]

/-- The text is empty or ends with a line end. -/
def Terminated (s : Str) : Prop := ∀ c ∈ s.getLast?, isEol c = true

/-- The last line of a terminated text has a terminator. All lines of it have one. -/
theorem Terminated.getLast {s : Str} (h : Terminated s) {l : Line}
    (hl : l ∈ (splitLines s).getLast?) : l.terminator ≠ .none := by
  intro ht
  obtain ⟨ls, hls⟩ := List.getLast?_eq_some_iff.1 hl
  have hjoin := joinLines_splitLines s
  have hok := (splitLines_valid s).ok l (by simp [hls])
  have hne := hok.nonempty ht
  rw [hls, joinLines_append, joinLines_cons, joinLines_nil, List.append_nil, Line.text, ht,
    Terminator.chars, List.append_nil] at hjoin
  have hlast := h (l.content.getLast hne)
    (by rw [← hjoin, List.getLast?_append_of_ne_nil _ hne]; exact List.getLast?_eq_some_getLast hne)
  rw [hok.noEol _ (List.getLast_mem hne)] at hlast
  cases hlast

/-- Lines that stand in front of another line are a terminated text. Only the last of all lines may
have no terminator. -/
theorem Valid.terminated {ls : List Line} {l : Line} (h : Valid (ls ++ [l])) :
    Terminated (joinLines ls) := by
  intro c hc
  cases ls using List.reverseRecOn with
  | nil => cases hc
  | append_singleton ls a =>
    have hfollow : a.Follows l := (valid_append.1 h).2.2 a (by simp) l (by simp)
    rw [joinLines_append, joinLines_cons, joinLines_nil, List.append_nil, Line.text] at hc
    cases ht : a.terminator with
    | none => exact absurd ht hfollow.1
    | lf | crlf | cr =>
      simp only [ht, Terminator.chars, List.getLast?_append, List.getLast?_cons_cons,
        List.getLast?_singleton, Option.some_or, Option.mem_def,
        Option.some.injEq] at hc
      subst hc
      rfl

/-- Neither list begins with a line that starts with LF unless the first one does. -/
def Heads (ls ls' : List Line) : Prop :=
  ∀ b' ∈ ls'.head?, ∃ b ∈ ls.head?, b'.StartsLf → b.StartsLf

/-- A list begins like itself. -/
theorem Heads.refl (ls : List Line) : Heads ls ls := fun b hb => ⟨b, hb, id⟩

/-- Lists that begin with lines of which the second one starts with LF only if the first one
does. -/
theorem Heads.of_cons {l l' : Line} (h : l'.StartsLf → l.StartsLf) (ls ls' : List Line) :
    Heads (l :: ls) (l' :: ls') := by
  intro b' hb'
  cases hb'
  exact ⟨l, rfl, h⟩

/-- Valid lists can be put together like others that end and begin alike. -/
theorem Valid.replace {a a' b b' : List Line} (h : Valid (a ++ b)) (ha : Valid a') (hb : Valid b')
    (hlast : ∀ x' ∈ a'.getLast?, ∃ x ∈ a.getLast?, x'.terminator = x.terminator)
    (hhead : Heads b b') : Valid (a' ++ b') := by
  refine valid_append.2 ⟨ha, hb, fun x' hx' y' hy' => ?_⟩
  obtain ⟨x, hx, heq⟩ := hlast x' hx'
  obtain ⟨y, hy, hlf⟩ := hhead y' hy'
  obtain ⟨hne, hcr⟩ := (valid_append.1 h).2.2 x hx y hy
  rw [← heq] at hne hcr
  exact ⟨hne, fun ht hstart => hcr ht (hlf hstart)⟩

end Lib
