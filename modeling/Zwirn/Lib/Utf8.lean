import Zwirn.Lib.Slice

/-!
# UTF-8

Texts are lists of Unicode scalar values, `encode` is their UTF-8 form and `decode` reads it back.
`decode` refuses overlong forms, surrogates and stray continuation bytes, and reads every encoded
text back (`decode_encode`).
-/

namespace Lib

/-- A text, as its Unicode scalar values. -/
abbrev Str := List Char

/-- The UTF-8 bytes of a text. -/
def encode (s : Str) : Bytes := s.flatMap String.utf8EncodeChar

/-- The payload of a continuation byte. -/
def continuation (b : UInt8) : Option Nat :=
  if 0x80 ≤ b.toNat ∧ b.toNat < 0xC0 then some (b.toNat - 0x80) else none

/-- The scalar value `n`, unless a shorter form of it exists or it is a surrogate. -/
def scalar (least n : Nat) : Option Char :=
  if least ≤ n ∧ n.isValidChar then some (Char.ofNat n) else none

/-- The scalar value at the start of a byte sequence, and the bytes after it. Overlong forms,
surrogates and values beyond the last plane are refused. -/
def decodeChar : Bytes → Option (Char × Bytes)
  | [] => none
  | b :: bs =>
    if b.toNat < 0x80 then some (Char.ofNat b.toNat, bs)
    else if b.toNat < 0xC0 then none
    else if b.toNat < 0xE0 then
      match bs with
      | b1 :: bs => do
        let n1 ← continuation b1
        let c ← scalar 0x80 ((b.toNat - 0xC0) * 64 + n1)
        some (c, bs)
      | _ => none
    else if b.toNat < 0xF0 then
      match bs with
      | b1 :: b2 :: bs => do
        let n1 ← continuation b1
        let n2 ← continuation b2
        let c ← scalar 0x800 (((b.toNat - 0xE0) * 64 + n1) * 64 + n2)
        some (c, bs)
      | _ => none
    else if b.toNat < 0xF8 then
      match bs with
      | b1 :: b2 :: b3 :: bs => do
        let n1 ← continuation b1
        let n2 ← continuation b2
        let n3 ← continuation b3
        let c ← scalar 0x10000 ((((b.toNat - 0xF0) * 64 + n1) * 64 + n2) * 64 + n3)
        some (c, bs)
      | _ => none
    else none

/-- Reads scalar values until the bytes are used up; `fuel` bounds their number. As many rounds as
there are bytes are enough. -/
def decodeLoop : Nat → Bytes → Option Str
  | _, [] => some []
  | 0, _ :: _ => none
  | fuel + 1, bs =>
    match decodeChar bs with
    | some (c, rest) => (decodeLoop fuel rest).map (c :: ·)
    | none => none

/-- The text a byte sequence encodes, if it is valid UTF-8. -/
def decode (bs : Bytes) : Option Str := decodeLoop bs.length bs

/-- The number of bytes in front that begin a scalar value but do not make it up, or one. -/
def maximalSubpart : Bytes → Nat
  | b :: b1 :: bs =>
    let n := b.toNat
    let n1 := b1.toNat
    let least := if n = 0xE0 then 0xA0 else if n = 0xF0 then 0x90 else 0x80
    let last := if n = 0xED then 0x9F else if n = 0xF4 then 0x8F else 0xBF
    if 0xE0 ≤ n ∧ n ≤ 0xF4 ∧ least ≤ n1 ∧ n1 ≤ last then
      if 0xF0 ≤ n ∧ (bs.head?.bind continuation).isSome then 3 else 2
    else 1
  | _ => 1

/-- Reads scalar values, and a replacement character for each part that is none. A part that is none
has at least one byte. -/
def lossyLoop : Nat → Bytes → Str
  | _, [] => []
  | 0, _ :: _ => []
  | fuel + 1, bs =>
    match decodeChar bs with
    | some (c, rest) => c :: lossyLoop fuel rest
    | none => Char.ofNat 0xFFFD :: lossyLoop fuel (bs.drop (maximalSubpart bs))

/-- The text of a byte sequence, with replacement characters where it is not valid UTF-8. -/
def fromUtf8Lossy (bs : Bytes) : Str := lossyLoop bs.length bs

/-- The number of UTF-8 bytes of a text. -/
def utf8Len (s : Str) : Nat := (encode s).length

/-- The empty text has no bytes. -/
@[simp] theorem encode_nil : encode [] = [] := rfl

/-- The bytes of a text are those of its first scalar value, and then those of the others. -/
@[simp] theorem encode_cons (c : Char) (s : Str) :
    encode (c :: s) = String.utf8EncodeChar c ++ encode s := rfl

/-- Texts are encoded one behind the other. -/
@[simp] theorem encode_append (s t : Str) : encode (s ++ t) = encode s ++ encode t :=
  List.flatMap_append

/-- A number that fits a byte is read back from it. -/
theorem toNat_byte {n : Nat} (h : n < 256) : (UInt8.ofNat n).toNat = n := by
  rw [UInt8.toNat_ofNat']; omega

/-- The payload of a continuation byte is read back from it. -/
theorem continuation_byte {n : Nat} (h : n < 64) : continuation (UInt8.ofNat (n + 128)) = some n := by
  rw [continuation, toNat_byte (by omega), if_pos (by omega), Nat.add_sub_cancel]

/-- Every scalar value has at least one byte. -/
theorem utf8EncodeChar_ne_nil (c : Char) : String.utf8EncodeChar c ≠ [] := by
  rw [← List.length_pos_iff, String.length_utf8EncodeChar]
  exact c.utf8Size_pos

/-- A scalar value that has no shorter form is accepted. -/
theorem scalar_of {least n : Nat} (h : least ≤ n) (hv : n.isValidChar) :
    scalar least n = some (Char.ofNat n) := if_pos ⟨h, hv⟩

/-- A byte below `0x80` is a scalar value. -/
theorem decodeChar_one {n : Nat} (h : n < 128) (rest : Bytes) :
    decodeChar (UInt8.ofNat n :: rest) = some (Char.ofNat n, rest) := by
  unfold decodeChar
  dsimp only
  rw [toNat_byte (by omega), if_pos h]

/-- Two bytes with the marks of a pair are read as the scalar value of their payloads. -/
theorem decodeChar_two {a b : Nat} (ha : a < 32) (hb : b < 64) {ch : Char}
    (h : scalar 0x80 (a * 64 + b) = some ch) (rest : Bytes) :
    decodeChar (UInt8.ofNat (a + 192) :: UInt8.ofNat (b + 128) :: rest) = some (ch, rest) := by
  simp only [decodeChar, toNat_byte (show a + 192 < 256 by omega), continuation_byte hb,
    Option.bind_eq_bind, Option.bind_some, Nat.add_sub_cancel, h]
  rw [if_neg (by omega), if_neg (by omega), if_pos (by omega)]

/-- Three bytes with the marks of a triple are read as the scalar value of their payloads. -/
theorem decodeChar_three {a b c : Nat} (ha : a < 16) (hb : b < 64) (hc : c < 64) {ch : Char}
    (h : scalar 0x800 ((a * 64 + b) * 64 + c) = some ch) (rest : Bytes) :
    decodeChar (UInt8.ofNat (a + 224) :: UInt8.ofNat (b + 128) :: UInt8.ofNat (c + 128) :: rest) =
      some (ch, rest) := by
  simp only [decodeChar, toNat_byte (show a + 224 < 256 by omega), continuation_byte hb,
    continuation_byte hc, Option.bind_eq_bind, Option.bind_some, Nat.add_sub_cancel, h]
  rw [if_neg (by omega), if_neg (by omega), if_neg (by omega), if_pos (by omega)]

/-- Four bytes with the marks of a quadruple are read as the scalar value of their payloads. -/
theorem decodeChar_four {a b c d : Nat} (ha : a < 8) (hb : b < 64) (hc : c < 64) (hd : d < 64)
    {ch : Char} (h : scalar 0x10000 (((a * 64 + b) * 64 + c) * 64 + d) = some ch)
    (rest : Bytes) :
    decodeChar (UInt8.ofNat (a + 240) :: UInt8.ofNat (b + 128) :: UInt8.ofNat (c + 128) ::
        UInt8.ofNat (d + 128) :: rest) = some (ch, rest) := by
  simp only [decodeChar, toNat_byte (show a + 240 < 256 by omega), continuation_byte hb,
    continuation_byte hc, continuation_byte hd, Option.bind_eq_bind, Option.bind_some,
    Nat.add_sub_cancel, h]
  rw [if_neg (by omega), if_neg (by omega), if_neg (by omega), if_neg (by omega),
    if_pos (by omega)]

/-- The encoding of a scalar value is read back, whatever follows it. The four cases are the lengths
of an encoding. -/
theorem decodeChar_encode (c : Char) (rest : Bytes) :
    decodeChar (String.utf8EncodeChar c ++ rest) = some (c, rest) := by
  have hv : c.val.toNat.isValidChar := c.valid
  have hlt : c.val.toNat < 1114112 := by rcases hv with h | h <;> omega
  have hc : Char.ofNat c.val.toNat = c := Char.ofNat_toNat c
  unfold String.utf8EncodeChar
  dsimp only
  generalize c.val.toNat = n at hv hlt hc
  split_ifs with h1 h2 h3
  · exact (decodeChar_one (by omega) rest).trans (by rw [hc])
  · have hn : n / 64 % 32 * 64 + n % 64 = n := by omega
    exact decodeChar_two (by omega) (by omega) (by rw [hn, scalar_of (by omega) hv, hc]) rest
  · have hn : (n / 4096 % 16 * 64 + n / 64 % 64) * 64 + n % 64 = n := by omega
    exact decodeChar_three (by omega) (by omega) (by omega)
      (by rw [hn, scalar_of (by omega) hv, hc]) rest
  · have hn : ((n / 262144 % 8 * 64 + n / 4096 % 64) * 64 + n / 64 % 64) * 64 + n % 64 = n := by
      omega
    exact decodeChar_four (by omega) (by omega) (by omega) (by omega)
      (by rw [hn, scalar_of (by omega) hv, hc]) rest

/-- The loop reads an encoded text back, if the fuel is enough. The fuel is counted in bytes, and
each scalar value has at least one. -/
theorem decodeLoop_encode (s : Str) {fuel : Nat} (h : (encode s).length ≤ fuel) :
    decodeLoop fuel (encode s) = some s := by
  induction s generalizing fuel with
  | nil => cases fuel <;> rfl
  | cons c s ih =>
    have hne := List.length_pos_of_ne_nil (utf8EncodeChar_ne_nil c)
    rw [encode_cons, List.length_append] at h
    obtain ⟨fuel, rfl⟩ : ∃ f, fuel = f + 1 := ⟨fuel - 1, by omega⟩
    rw [encode_cons]
    have hstep : decodeLoop (fuel + 1) (String.utf8EncodeChar c ++ encode s) =
        match decodeChar (String.utf8EncodeChar c ++ encode s) with
        | some (c, rest) => (decodeLoop fuel rest).map (c :: ·)
        | none => none := by
      cases hb : String.utf8EncodeChar c with
      | nil => exact absurd hb (utf8EncodeChar_ne_nil c)
      | cons b bs => rfl
    rw [hstep, decodeChar_encode]
    simp [@ih fuel (by omega)]

/-- An encoded text is read back. -/
@[simp] theorem decode_encode (s : Str) : decode (encode s) = some s :=
  decodeLoop_encode s (Nat.le_refl _)

/-- What is valid UTF-8 is read without loss. The two loops read the same scalar values, as long as
there are such. -/
theorem lossyLoop_of_decodeLoop {fuel : Nat} {bs : Bytes} {s : Str}
    (h : decodeLoop fuel bs = some s) : lossyLoop fuel bs = s := by
  induction fuel generalizing bs s with
  | zero =>
    cases bs with
    | nil => exact Option.some.inj h
    | cons b bs => cases h
  | succ fuel ih =>
    cases bs with
    | nil => exact Option.some.inj h
    | cons b bs =>
      simp only [decodeLoop] at h
      simp only [lossyLoop]
      cases hchar : decodeChar (b :: bs) with
      | none => rw [hchar] at h; cases h
      | some found =>
        rw [hchar] at h
        obtain ⟨s', hs', rfl⟩ := Option.map_eq_some_iff.1 h
        exact congrArg (found.1 :: ·) (ih hs')

/-- An encoded text is read without loss. -/
theorem fromUtf8Lossy_encode (s : Str) : fromUtf8Lossy (encode s) = s :=
  lossyLoop_of_decodeLoop (decode_encode s)

/-- Texts with the same bytes are the same, for each is what its bytes are read as. -/
theorem encode_injective {s t : Str} (h : encode s = encode t) : s = t := by
  have hdecode := decode_encode s
  rw [h, decode_encode] at hdecode
  exact (Option.some.inj hdecode).symm

end Lib
