import Zwirn.Lib.Lines
import Zwirn.Lib.Outcome

/-!
# Canonical source and baseline hashes

`canonicalizeSource` turns every line end into LF and ends a nonempty text with one
(`canonicalizeSource_eq`). A `CanonicalSource` is a text in this form without a byte-order mark; a
`BaselineHash` is the first eight bytes of its digest. The code is in `src/fragment.rs`.
-/

namespace Zwirn.Fragment

open Lib

/-- The byte-order mark, which no source may begin with. -/
def byteOrderMark : Char := '\uFEFF'

/-- The text begins with a byte-order mark. -/
def StartsWithMark (value : Str) : Prop := value.head? = some byteOrderMark

instance (value : Str) : Decidable (StartsWithMark value) :=
  inferInstanceAs (Decidable (value.head? = some byteOrderMark))

/-- The loop over a text with line ends other than LF: `normalized` is the output, `segment` the
text since the last CR. -/
def normalizeLoop : Str → Str → Str → Str
  | [], normalized, segment => normalized ++ segment
  | '\r' :: '\n' :: rest, normalized, segment =>
    normalizeLoop rest (normalized ++ segment ++ ['\n']) []
  | '\r' :: rest, normalized, segment => normalizeLoop rest (normalized ++ segment ++ ['\n']) []
  | c :: rest, normalized, segment => normalizeLoop rest normalized (segment ++ [c])

/-- The canonical form of a text: every line end is LF, and a text that is not empty ends with one.
This is the loop of the source, segment by segment. -/
def canonicalizeSource (value : Str) : Str :=
  let value := if '\r' ∈ value then normalizeLoop value [] [] else value
  if value ≠ [] ∧ value.getLast? ≠ some '\n' then value ++ ['\n'] else value

/-! ## The canonical form -/

/-- Every line end turned into LF. -/
def normalizeEols : Str → Str
  | [] => []
  | '\r' :: '\n' :: rest => '\n' :: normalizeEols rest
  | '\r' :: rest => '\n' :: normalizeEols rest
  | c :: rest => c :: normalizeEols rest

/-- The loop turns the line ends of the rest into LF, behind what it has put together before. -/
theorem normalizeLoop_eq (value normalized segment : Str) :
    normalizeLoop value normalized segment = normalized ++ segment ++ normalizeEols value := by
  induction value, normalized, segment using normalizeLoop.induct with
  | case1 normalized segment => simp [normalizeLoop, normalizeEols]
  | case2 rest normalized segment ih => rw [normalizeLoop, normalizeEols, ih]; simp
  | case3 rest normalized segment hne ih => rw [normalizeLoop, normalizeEols, ih] <;> simp_all
  | case4 c rest normalized segment h1 h2 ih =>
    rw [normalizeLoop, normalizeEols, ih] <;> simp_all

/-- No CR is left when the line ends are turned into LF. -/
theorem not_mem_normalizeEols (value : Str) : '\r' ∉ normalizeEols value := by
  induction value using normalizeEols.induct with
  | case1 => simp [normalizeEols]
  | case2 rest ih => simp [normalizeEols, ih]
  | case3 rest hne ih => rw [normalizeEols] <;> simp_all
  | case4 c rest h1 h2 ih => rw [normalizeEols] <;> simp_all [eq_comm]

/-- A text without CR has its line ends already. -/
theorem normalizeEols_of_not_mem {value : Str} (h : '\r' ∉ value) : normalizeEols value = value := by
  induction value using normalizeEols.induct with
  | case1 => rfl
  | case2 rest ih => simp at h
  | case3 rest hne ih => simp at h
  | case4 c rest h1 h2 ih => rw [normalizeEols] <;> simp_all

/-- A nonempty text with LF at its end. -/
def finishLine (value : Str) : Str :=
  if value ≠ [] ∧ value.getLast? ≠ some '\n' then value ++ ['\n'] else value

/-- The canonical form, by its two parts: first the line ends, then the end of the text. -/
theorem canonicalizeSource_eq (value : Str) :
    canonicalizeSource value = finishLine (normalizeEols value) := by
  have : (if '\r' ∈ value then normalizeLoop value [] [] else value) = normalizeEols value := by
    split
    · simp [normalizeLoop_eq]
    · next h => exact (normalizeEols_of_not_mem h).symm
  rw [canonicalizeSource, this, finishLine]

/-- A text that is finished is empty, or it ends with LF. -/
theorem finishLine_last (value : Str) :
    finishLine value = [] ∨ (finishLine value).getLast? = some '\n' := by
  unfold finishLine
  split
  · exact .inr (by simp)
  · next h => rw [not_and_or, not_not, not_not] at h; exact h

/-- The canonical texts: without CR, and empty or ended by LF. These are the texts that a
`CanonicalSource` may hold. -/
theorem canonicalizeSource_eq_self {value : Str} : canonicalizeSource value = value ↔
    '\r' ∉ value ∧ (value = [] ∨ value.getLast? = some '\n') := by
  rw [canonicalizeSource_eq]
  constructor
  · intro h
    have hlast := finishLine_last (normalizeEols value)
    rw [h] at hlast
    refine ⟨fun hr => ?_, hlast⟩
    have hno := not_mem_normalizeEols value
    rw [← h] at hr
    unfold finishLine at hr
    split at hr
    · simp [hno] at hr
    · exact hno hr
  · intro h
    rw [normalizeEols_of_not_mem h.1, finishLine, if_neg]
    rw [not_and_or, not_not, not_not]
    exact h.2

/-- The canonical form of a text is its own canonical form. -/
theorem canonicalizeSource_idem (value : Str) :
    canonicalizeSource (canonicalizeSource value) = canonicalizeSource value := by
  rw [canonicalizeSource_eq_self, canonicalizeSource_eq]
  refine ⟨?_, finishLine_last _⟩
  unfold finishLine
  split <;> simp [not_mem_normalizeEols]

/-- An LF in front stays where it is. -/
@[simp] theorem finishLine_lf (value : Str) :
    finishLine ('\n' :: value) = '\n' :: finishLine value := by
  cases value with
  | nil => rfl
  | cons c rest => simp only [finishLine, ne_eq, reduceCtorEq, not_false_eq_true, true_and,
      List.getLast?_cons_cons, List.cons_append]; split <;> rfl

/-- A character in front stays where it is; a text of it alone is ended by LF. -/
theorem finishLine_cons {c : Char} (hc : c ≠ '\n') (value : Str) :
    finishLine (c :: value) = c :: (if value = [] then ['\n'] else finishLine value) := by
  cases value with
  | nil => simp [finishLine, hc]
  | cons c' rest => simp only [finishLine, ne_eq, reduceCtorEq, not_false_eq_true, true_and,
      List.getLast?_cons_cons, List.cons_append, if_false]; split <;> rfl

/-- Only the empty text is empty when it is finished. -/
theorem finishLine_eq_nil {value : Str} : finishLine value = [] ↔ value = [] := by
  unfold finishLine
  split
  · next h => simp [h.1]
  · rfl

/-- Only the empty text is empty when its line ends are turned into LF. -/
theorem normalizeEols_eq_nil {value : Str} : normalizeEols value = [] ↔ value = [] := by
  cases value using normalizeEols.fun_cases with
  | case1 => simp [normalizeEols]
  | case2 rest => simp [normalizeEols]
  | case3 rest hne => rw [normalizeEols] <;> simp_all
  | case4 c rest h1 h2 => rw [normalizeEols] <;> simp_all

/-- The canonical form has the lines of the text, each ended by LF. The induction follows the
splitting of the text. -/
theorem canonicalizeSource_lines (value : Str) :
    canonicalizeSource value = joinLines ((splitLines value).map Line.withLf) := by
  rw [canonicalizeSource_eq]
  induction value using splitLines.induct with
  | case1 => rfl
  | case2 cs ih =>
    rw [normalizeEols, finishLine_lf, ih]
    · rfl
    · simp
    · simp
  | case3 cs ih =>
    rw [normalizeEols, finishLine_lf, ih]
    rfl
  | case4 cs hne ih =>
    rw [normalizeEols, finishLine_lf, ih, splitLines_cr]
    · rfl
    · cases cs with
      | nil => simp
      | cons c cs => intro hc; simp at hc; exact hne cs (by rw [hc])
    · exact hne
  | case5 c cs h1 h2 h3 ih =>
    have hc : isEol c = false := by simpa [isEol] using ⟨h1, h3⟩
    rw [normalizeEols, finishLine_cons h1, ih, splitLines_cons hc]
    · by_cases hcs : cs = []
      · subst hcs
        rfl
      · obtain ⟨l, ls, hls⟩ := List.exists_cons_of_ne_nil (splitLines_ne_nil hcs)
        rw [if_neg (mt normalizeEols_eq_nil.1 hcs), hls]
        rfl
    · exact h2
    · exact h3

/-- The lines of the canonical form are those of the text, each ended by LF. -/
theorem splitLines_canonicalize (value : Str) :
    splitLines (canonicalizeSource value) = (splitLines value).map Line.withLf := by
  rw [canonicalizeSource_lines, splitLines_withLf]

/-- The canonical form begins with a byte-order mark exactly if the text does. The first character
is changed only if it is a CR. -/
theorem startsWithMark_canonicalize {value : Str} :
    StartsWithMark (canonicalizeSource value) ↔ StartsWithMark value := by
  have hloop : (normalizeEols value).head? = some byteOrderMark ↔
      value.head? = some byteOrderMark := by
    cases value using normalizeEols.fun_cases with
    | case1 => simp [normalizeEols]
    | case2 rest => simp [normalizeEols, byteOrderMark]
    | case3 rest hne => rw [normalizeEols] <;> simp_all [byteOrderMark]
    | case4 c rest h1 h2 => rw [normalizeEols] <;> simp_all
  unfold StartsWithMark
  rw [canonicalizeSource_eq, ← hloop, finishLine]
  split
  · next h =>
    cases hn : normalizeEols value with
    | nil => exact absurd hn h.1
    | cons c cs => simp
  · rfl

/-! ## Canonical source -/

/-- Why source cannot be represented canonically. -/
inductive CanonicalSourceError
  | byteOrderMark
deriving DecidableEq, Repr

/-- Fragment source in its canonical transferred representation. -/
structure CanonicalSource where
  value : Str
  canonical : canonicalizeSource value = value
  unmarked : ¬ StartsWithMark value
deriving DecidableEq

namespace CanonicalSource

/-- Canonical source is its text, since the other fields are proofs. -/
theorem value_injective {a b : CanonicalSource} (h : a.value = b.value) : a = b := by
  cases a
  cases b
  cases h
  rfl

/-- The canonical form of a text that is known to have no byte-order mark. -/
def fromValidated (value : Str) (h : ¬ StartsWithMark value) : CanonicalSource where
  value := canonicalizeSource value
  canonical := canonicalizeSource_idem value
  unmarked := fun hm => h (startsWithMark_canonicalize.1 hm)

/-- Makes a text canonical, unless it begins with a byte-order mark. -/
def tryFrom (value : Str) : Except CanonicalSourceError CanonicalSource :=
  if h : StartsWithMark value then .error .byteOrderMark else .ok (fromValidated value h)

/-- Canonical source has no CR, and is empty or ends in LF. -/
theorem shape (s : CanonicalSource) :
    '\r' ∉ s.value ∧ (s.value = [] ∨ s.value.getLast? = some '\n') :=
  canonicalizeSource_eq_self.1 s.canonical

/-- A text becomes the source with its canonical form, exactly if it does not begin with a
byte-order mark. -/
theorem tryFrom_eq_ok {value : Str} {s : CanonicalSource} :
    tryFrom value = .ok s ↔ ¬ StartsWithMark value ∧ s.value = canonicalizeSource value := by
  unfold tryFrom
  split
  · next h => simp [h]
  · next h =>
    rw [Except.ok.injEq]
    constructor
    · intro he; exact ⟨h, by rw [← he]; rfl⟩
    · intro he; exact value_injective he.2.symm

/-- Canonical source is the canonical form of itself. -/
theorem tryFrom_value (s : CanonicalSource) : tryFrom s.value = .ok s :=
  tryFrom_eq_ok.2 ⟨s.unmarked, s.canonical.symm⟩

/-- What follows the LF that a canonical source begins with is canonical as it stands. So reading it
gives the source without that LF, and nothing else of it changes. -/
theorem tryFrom_tail {s s' : CanonicalSource} {rest : Str} (h : s.value = '\n' :: rest)
    (h' : tryFrom rest = .ok s') : s.value = '\n' :: s'.value := by
  obtain ⟨hcr, hlast⟩ := s.shape
  rw [h] at hcr hlast
  have hself : canonicalizeSource rest = rest := by
    refine canonicalizeSource_eq_self.2 ⟨fun hmem => hcr (List.mem_cons_of_mem _ hmem), ?_⟩
    cases rest with
    | nil => exact .inl rfl
    | cons c rest => exact .inr (hlast.resolve_left (List.cons_ne_nil _ _))
  rw [h, (tryFrom_eq_ok.1 h').2, hself]

end CanonicalSource

/-! ## Baseline hashes -/

/-- The digest function of SHA-256. -/
class Sha256 where
  digest : Bytes → Bytes
  digest_length : ∀ bytes, (digest bytes).length = 32

/-- The first eight bytes of a SHA-256 digest of canonical source. -/
structure BaselineHash where
  bytes : Bytes
  size : bytes.length = 8
deriving DecidableEq

/-- Why a string is not a canonical baseline hash. -/
inductive BaselineHashError
  | invalidLength (actual : Nat)
  | invalidCharacter (index : Nat)
deriving DecidableEq, Repr

/-- The lowercase hexadecimal digit of a number below 16. -/
def hexDigit (n : Nat) : Char :=
  if n < 10 then Char.ofNat (n + 48) else Char.ofNat (n - 10 + 97)

/-- The number that a lowercase hexadecimal digit writes. Other bytes, uppercase digits among them,
write none. -/
def lowercaseHexValue (byte : UInt8) : Option Nat :=
  let n := byte.toNat
  if 48 ≤ n ∧ n ≤ 57 then some (n - 48)
  else if 97 ≤ n ∧ n ≤ 102 then some (n - 97 + 10)
  else none

/-- The two digits of a byte. -/
def hexByte (b : UInt8) : Str := [hexDigit (b.toNat / 16), hexDigit (b.toNat % 16)]

namespace BaselineHash

/-- A hash is its bytes, since the other field is a proof. -/
theorem bytes_injective {a b : BaselineHash} (h : a.bytes = b.bytes) : a = b := by
  cases a
  cases b
  cases h
  rfl

/-- The baseline hash of canonical source: the first eight bytes of the digest of its UTF-8
bytes. -/
def fromSource [Sha256] (source : CanonicalSource) : BaselineHash where
  bytes := (Sha256.digest (encode source.value)).take 8
  size := by rw [List.length_take, Sha256.digest_length]; rfl

/-- The hash as it is written: two digits for each byte. -/
def display (hash : BaselineHash) : Str := hash.bytes.flatMap hexByte

/-- The bytes that pairs of digits write, from the pair `index` on. -/
def parsePairs : Nat → Bytes → Except BaselineHashError Bytes
  | index, high :: low :: rest => do
    let high ← okOr (lowercaseHexValue high) (.invalidCharacter (index * 2))
    let low ← okOr (lowercaseHexValue low) (.invalidCharacter (index * 2 + 1))
    let bytes ← parsePairs (index + 1) rest
    pure (UInt8.ofNat (high * 16 + low) :: bytes)
  | _, _ => pure []

/-- Pairs of digits write half as many bytes. A digit without a partner is not read. -/
theorem parsePairs_length {index : Nat} {value : Bytes} {bytes : Bytes}
    (h : parsePairs index value = .ok bytes) : bytes.length = value.length / 2 := by
  induction index, value using parsePairs.induct generalizing bytes with
  | case1 index high low rest ih =>
    simp only [parsePairs, Except.bind_eq_ok, Except.pure_eq_ok] at h
    obtain ⟨_, _, _, _, bytes', h', rfl⟩ := h
    have := ih h'
    simp only [List.length_cons] at this ⊢
    omega
  | case2 value index hne =>
    rcases value with _ | ⟨a, _ | ⟨b, rest⟩⟩
    · cases h; rfl
    · cases h; simp
    · exact absurd rfl (hne a b rest)

/-- Reads a hash of exactly 16 lowercase hexadecimal digits. The length is checked first, then the
digits in their order. -/
def tryFrom (value : Str) : Except BaselineHashError BaselineHash :=
  if hlen : utf8Len value ≠ 16 then .error (.invalidLength (utf8Len value))
  else
    match h : parsePairs 0 (encode value) with
    | .ok bytes => .ok ⟨bytes, by
        have hpairs := parsePairs_length h
        unfold utf8Len at hlen
        omega⟩
    | .error e => .error e

/-! ### Reading back -/

/-- A digit is one byte, and this byte writes its number. -/
theorem encode_hexDigit : ∀ n < 16, ∃ byte, encode [hexDigit n] = [byte] ∧
    lowercaseHexValue byte = some n := by
  intro n hn
  refine ⟨(encode [hexDigit n]).headD 0, ?_⟩
  revert n
  decide

/-- The digits of a byte are two bytes, which write its two halves. -/
theorem encode_hexByte (b : UInt8) : ∃ high low, encode (hexByte b) = [high, low] ∧
    lowercaseHexValue high = some (b.toNat / 16) ∧ lowercaseHexValue low = some (b.toNat % 16) := by
  have hb := b.toNat_lt
  obtain ⟨high, he, hv⟩ := encode_hexDigit (b.toNat / 16) (by omega)
  obtain ⟨low, he', hv'⟩ := encode_hexDigit (b.toNat % 16) (by omega)
  refine ⟨high, low, ?_, hv, hv'⟩
  have happ := encode_append [hexDigit (b.toNat / 16)] [hexDigit (b.toNat % 16)]
  rw [he, he'] at happ
  exact happ

/-- The digits of bytes are read back as these bytes. Each byte is two digits, which give its two
halves. -/
theorem parsePairs_display (bytes : Bytes) (index : Nat) :
    parsePairs index (encode (bytes.flatMap hexByte)) = .ok bytes := by
  induction bytes generalizing index with
  | nil => rfl
  | cons b bytes ih =>
    obtain ⟨high, low, he, hhigh, hlow⟩ := encode_hexByte b
    have hb : UInt8.ofNat (b.toNat / 16 * 16 + b.toNat % 16) = b := by
      rw [Nat.div_add_mod', UInt8.ofNat_toNat]
    rw [List.flatMap_cons, encode_append, he, List.cons_append, List.cons_append, List.nil_append,
      parsePairs]
    simp only [hhigh, hlow, okOr, Except.bind_eq_ok, Except.pure_eq_ok, Except.ok.injEq,
      exists_eq_left']
    exact ⟨bytes, ih (index + 1), by rw [hb]⟩

/-- Each byte has two digits, of one byte each. -/
theorem encode_flatMap_hexByte_length (bytes : Bytes) :
    (encode (bytes.flatMap hexByte)).length = 2 * bytes.length := by
  induction bytes with
  | nil => rfl
  | cons b bytes ih =>
    obtain ⟨high, low, he, -⟩ := encode_hexByte b
    rw [List.flatMap_cons, encode_append, List.length_append, ih, he]
    simp only [List.length_cons, List.length_nil]
    omega

/-- A displayed hash is read back. It has sixteen digits, and they are read back pair by pair. -/
theorem tryFrom_display (hash : BaselineHash) : tryFrom hash.display = .ok hash := by
  have hlen : utf8Len hash.display = 16 := by
    rw [utf8Len, display, encode_flatMap_hexByte_length, hash.size]
  unfold tryFrom
  rw [dif_neg (by simp [hlen])]
  split
  · next bytes h =>
    rw [display, parsePairs_display] at h
    cases h
    rfl
  · next e h =>
    rw [display, parsePairs_display] at h
    cases h

/-- The characters of a displayed hash. -/
theorem mem_display {hash : BaselineHash} {c : Char} (h : c ∈ hash.display) :
    ∃ n < 16, c = hexDigit n := by
  obtain ⟨b, -, hc⟩ := List.mem_flatMap.1 h
  have hb := b.toNat_lt
  simp only [hexByte, List.mem_cons, List.not_mem_nil, or_false] at hc
  rcases hc with rfl | rfl
  · exact ⟨_, by omega, rfl⟩
  · exact ⟨_, by omega, rfl⟩

end BaselineHash

end Zwirn.Fragment
