import Mathlib

/-!
# Slices and patches of sequences, and little-endian words

`slice l start len` is the window of `l` that starts at `start`, `patch l start new` overwrites the
window at `start` with `new`. A patch is read back where it was written (`slice_patch_self`) and
changes nothing else (`getElem?_patch_of_lt`, `getElem?_patch_of_ge`); two sequences that agree on
a window have the same slice there (`slice_congr`). `leWord` and `leBytes` read and write
little-endian words.
-/

namespace Lib

/-- A sequence of bytes. -/
abbrev Bytes := List UInt8

/-! ## Slices -/

section
variable {α : Type}

/-- The `len` elements of `l` from `start` on. Where the list ends before, there are fewer. -/
def slice (l : List α) (start len : Nat) : List α := (l.drop start).take len

/-- Overwrites the elements from `start` on with those of `new`. The length is kept where `new`
fits. -/
def patch (l : List α) (start : Nat) (new : List α) : List α :=
  l.take start ++ new ++ l.drop (start + new.length)

/-- The elements of a slice are those of the list, as far as the slice goes. -/
theorem getElem?_slice (l : List α) (start len i : Nat) :
    (slice l start len)[i]? = if i < len then l[start + i]? else none := by
  simp only [slice, List.getElem?_take, List.getElem?_drop]

/-- A slice of no elements is empty, also where it starts behind the end. -/
@[simp] theorem slice_zero (l : List α) (start : Nat) : slice l start 0 = [] := by simp [slice]

/-- Sequences that agree on a window have the same slice there. -/
theorem slice_congr {l l' : List α} {start len : Nat}
    (h : ∀ i, start ≤ i → i < start + len → l'[i]? = l[i]?) :
    slice l' start len = slice l start len := by
  refine List.ext_getElem? fun i => ?_
  rw [getElem?_slice, getElem?_slice]
  split
  · exact h _ (by omega) (by omega)
  · rfl

/-- A slice of the second one of two parts is found behind the first one. -/
theorem slice_append_right (a b : List α) (start len : Nat) :
    slice (a ++ b) (a.length + start) len = slice b start len := by
  unfold slice
  rw [← List.drop_drop, List.drop_left]

/-- The middle of three parts is the slice at its own place. -/
theorem slice_middle (a b c : List α) : slice (a ++ b ++ c) a.length b.length = b := by
  rw [List.append_assoc]
  have := slice_append_right a (b ++ c) 0 b.length
  rw [Nat.add_zero] at this
  rw [this, slice, List.drop_zero, List.take_left]

/-- A patch that fits does not change the length. -/
theorem patch_length {l new : List α} {start : Nat} (h : start + new.length ≤ l.length) :
    (patch l start new).length = l.length := by
  simp only [patch, List.length_append, List.length_take, List.length_drop]; omega

/-- What stands in front of a patch stays. -/
theorem getElem?_patch_of_lt {l new : List α} {start i : Nat} (h : start ≤ l.length)
    (hi : i < start) : (patch l start new)[i]? = l[i]? := by
  rw [patch, List.append_assoc, List.getElem?_append_left (by simp; omega),
    List.getElem?_take_of_lt hi]

/-- What stands behind a patch stays. -/
theorem getElem?_patch_of_ge {l new : List α} {start i : Nat} (h : start + new.length ≤ l.length)
    (hi : start + new.length ≤ i) : (patch l start new)[i]? = l[i]? := by
  have hlen : (l.take start ++ new).length = start + new.length := by simp; omega
  rw [patch, List.getElem?_append_right (by omega), hlen, List.getElem?_drop]
  congr 1; omega

/-- A patch is read back where it was written. -/
theorem slice_patch_self {l new : List α} {start : Nat} (h : start + new.length ≤ l.length) :
    slice (patch l start new) start new.length = new := by
  have := slice_middle (l.take start) new (l.drop (start + new.length))
  rwa [List.length_take, Nat.min_eq_left (by omega)] at this

/-- A slice beside a patch is the slice before it. -/
theorem slice_patch_of_disjoint {l new : List α} {start s len : Nat}
    (h : start + new.length ≤ l.length) (hd : s + len ≤ start ∨ start + new.length ≤ s) :
    slice (patch l start new) s len = slice l s len := by
  refine slice_congr fun i h1 h2 => ?_
  rcases hd with hd | hd
  · exact getElem?_patch_of_lt (by omega) (by omega)
  · exact getElem?_patch_of_ge h (by omega)

end

/-! ## Little-endian words -/

/-- The number a little-endian byte sequence writes. -/
def leWord : Bytes → Nat
  | [] => 0
  | b :: bs => b.toNat + 256 * leWord bs

/-- The `n` low bytes of a number, least significant first. -/
def leBytes : Nat → Nat → Bytes
  | 0, _ => []
  | n + 1, v => UInt8.ofNat (v % 256) :: leBytes n (v / 256)

/-- A number is written with as many bytes as are asked for. -/
@[simp] theorem leBytes_length (n v : Nat) : (leBytes n v).length = n := by
  induction n generalizing v with
  | zero => rfl
  | succ n ih => simp [leBytes, ih]

/-- A word that fits its bytes is read back from them. -/
theorem leWord_leBytes {n v : Nat} (h : v < 256 ^ n) : leWord (leBytes n v) = v := by
  induction n generalizing v with
  | zero => simp at h; simp [leBytes, leWord, h]
  | succ n ih =>
    have hb : (UInt8.ofNat (v % 256)).toNat = v % 256 := by
      rw [UInt8.toNat_ofNat']; omega
    rw [leBytes, leWord, hb, ih (by rw [Nat.pow_succ] at h; omega)]
    omega

end Lib
