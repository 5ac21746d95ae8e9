import Mathlib

/-!
# Ordered maps and binary search

`OrdMap` is a map over an ordered key type, kept as its list of entries in strictly increasing key
order. Lookup and insertion have the usual laws (`OrdMap.find?_insert`), and the two neighbour
queries return the nearest entry on their side (`OrdMap.below_eq_some`, `OrdMap.atLeast_eq_some`).
`binarySearchBy` is the halving search over a list on which the comparison does not decrease;
it finds an equal element exactly when there is one (`binarySearchBy_ok`, `binarySearchBy_error`).
-/

namespace Lib

variable {κ ν : Type} [LinearOrder κ]

/-! ## Entry lists -/

/-- Inserts an entry into a list in key order, replacing an entry of the same key. -/
def insertEntry (k : κ) (v : ν) : List (κ × ν) → List (κ × ν)
  | [] => [(k, v)]
  | e :: es =>
    if k < e.1 then (k, v) :: e :: es
    else if k = e.1 then (k, v) :: es
    else e :: insertEntry k v es

/-- An entry after an insertion is the inserted one, or was there before. The induction is on the
entries. -/
theorem mem_insertEntry {k : κ} {v : ν} {e : κ × ν} {es : List (κ × ν)}
    (h : e ∈ insertEntry k v es) : e = (k, v) ∨ e ∈ es := by
  induction es with
  | nil => simpa [insertEntry] using h
  | cons e' es ih =>
    unfold insertEntry at h
    split at h
    · exact (List.mem_cons.1 h).imp_right id
    · split at h
      · exact (List.mem_cons.1 h).imp_right (List.mem_cons_of_mem _)
      · rcases List.mem_cons.1 h with rfl | h
        · exact .inr (.head _)
        · exact (ih h).imp_right (List.mem_cons_of_mem _)

/-- Keys in strictly increasing order stay so. The inserted entry stands where its key belongs, in
place of the one that had the key. -/
theorem insertEntry_sorted (k : κ) (v : ν) {es : List (κ × ν)}
    (h : es.Pairwise (·.1 < ·.1)) : (insertEntry k v es).Pairwise (·.1 < ·.1) := by
  induction es with
  | nil => exact List.pairwise_singleton _ _
  | cons e es ih =>
    have ⟨hlt, hes⟩ := List.pairwise_cons.1 h
    unfold insertEntry
    split
    · next hk =>
      refine h.cons fun e' he' => ?_
      rcases List.mem_cons.1 he' with rfl | he'
      · exact hk
      · exact hk.trans (hlt e' he')
    · next hk =>
      split
      · next heq => exact hes.cons fun e' he' => heq ▸ hlt e' he'
      · next hne =>
        refine (ih hes).cons fun e' he' => ?_
        rcases mem_insertEntry he' with rfl | he'
        · exact lt_of_le_of_ne (not_lt.1 hk) (Ne.symm hne)
        · exact hlt e' he'

/-! ## Maps -/

/-- A map over an ordered key type: its entries in strictly increasing key order, so that no key has
two of them. The order is that in which a `BTreeMap` is iterated. -/
structure OrdMap (κ ν : Type) [LinearOrder κ] where
  entries : List (κ × ν)
  sorted : entries.Pairwise (·.1 < ·.1)

namespace OrdMap

/-- The map without entries. -/
def empty : OrdMap κ ν := ⟨[], .nil⟩

/-- The value stored under a key. -/
def find? (m : OrdMap κ ν) (k : κ) : Option ν :=
  (m.entries.find? (·.1 = k)).map (·.2)

/-- Stores a value under a key, replacing the value stored before. -/
def insert (m : OrdMap κ ν) (k : κ) (v : ν) : OrdMap κ ν :=
  ⟨insertEntry k v m.entries, insertEntry_sorted k v m.sorted⟩

/-- Stores under a key what `f` makes of the value stored before. -/
def alter (m : OrdMap κ ν) (k : κ) (f : Option ν → ν) : OrdMap κ ν :=
  m.insert k (f (m.find? k))

/-- The keys in increasing order. -/
def keys (m : OrdMap κ ν) : List κ := m.entries.map (·.1)

/-- The entry with the greatest key below `k`. -/
def below (m : OrdMap κ ν) (k : κ) : Option (κ × ν) := (m.entries.filter (·.1 < k)).getLast?

/-- The entry with the least key that is not below `k`. -/
def atLeast (m : OrdMap κ ν) (k : κ) : Option (κ × ν) := m.entries.find? (k ≤ ·.1)

/-- An entry of the map is what its key finds. No other entry has its key. -/
theorem find?_eq_some {m : OrdMap κ ν} {k : κ} {v : ν} :
    m.find? k = some v ↔ (k, v) ∈ m.entries := by
  obtain ⟨es, hs⟩ := m
  induction es with
  | nil => simp [find?]
  | cons e es ih =>
    have ⟨hlt, hes⟩ := List.pairwise_cons.1 hs
    have ih := ih hes
    simp only [find?] at ih ⊢
    by_cases hk : e.1 = k
    · subst hk
      have hno : (e.1, v) ∉ es := fun hm => lt_irrefl e.1 (hlt (e.1, v) hm)
      simp [hno, Prod.ext_iff, eq_comm]
    · rw [List.find?_cons_of_neg (by simpa using hk), ih, List.mem_cons]
      exact ⟨.inr, fun h => h.resolve_left fun he => hk (by rw [← he])⟩

/-- A key finds nothing exactly if no entry has it. -/
theorem find?_eq_none {m : OrdMap κ ν} {k : κ} : m.find? k = none ↔ ∀ v, (k, v) ∉ m.entries := by
  rw [Option.eq_none_iff_forall_ne_some]
  exact forall_congr' fun v => not_congr find?_eq_some

/-- The keys of the map are those that find something. -/
theorem mem_keys {m : OrdMap κ ν} {k : κ} : k ∈ m.keys ↔ ∃ v, m.find? k = some v := by
  simp only [find?_eq_some, keys, List.mem_map]
  constructor
  · rintro ⟨e, he, rfl⟩; exact ⟨e.2, he⟩
  · rintro ⟨v, hv⟩; exact ⟨_, hv, rfl⟩

/-- The keys are in strictly increasing order. -/
theorem keys_sorted (m : OrdMap κ ν) : m.keys.Pairwise (· < ·) := List.pairwise_map.2 m.sorted

/-- The empty map finds nothing. -/
@[simp] theorem find?_empty (k : κ) : (empty : OrdMap κ ν).find? k = none := rfl

/-- Insertion answers its own key and leaves every other key alone. The induction is on the entries,
and it stops where the new key belongs. -/
theorem find?_insert (m : OrdMap κ ν) (k k' : κ) (v : ν) :
    (m.insert k v).find? k' = if k' = k then some v else m.find? k' := by
  obtain ⟨es, hs⟩ := m
  have key : (insertEntry k v es).find? (·.1 = k') =
      if k' = k then some (k, v) else es.find? (·.1 = k') := by
    induction es with
    | nil => by_cases h : k = k' <;> simp [insertEntry, h, eq_comm]
    | cons e es ih =>
      have ih := ih (List.pairwise_cons.1 hs).2
      unfold insertEntry
      by_cases h : k' = k
      · subst h
        rw [if_pos rfl] at ih ⊢
        split
        · simp
        · split
          · simp
          · next hne => rw [List.find?_cons_of_neg (by simpa using Ne.symm hne), ih]
      · have hkk : ¬ k = k' := Ne.symm h
        rw [if_neg h] at ih ⊢
        split
        · rw [List.find?_cons_of_neg (by simpa using hkk)]
        · split
          · next heq =>
            rw [List.find?_cons_of_neg (by simpa using hkk),
              List.find?_cons_of_neg (by simpa using heq ▸ hkk)]
          · by_cases he : e.1 = k' <;> simp [he, ih]
  show ((insertEntry k v es).find? _).map _ = _
  rw [key]
  split
  · rfl
  · rfl

/-- An inserted key finds what was inserted. -/
@[simp] theorem find?_insert_self (m : OrdMap κ ν) (k : κ) (v : ν) :
    (m.insert k v).find? k = some v := by
  rw [find?_insert, if_pos rfl]

/-- The keys after an insertion are the keys before it and the inserted one. -/
theorem mem_keys_insert {m : OrdMap κ ν} {k k' : κ} {v : ν} :
    k' ∈ (m.insert k v).keys ↔ k' = k ∨ k' ∈ m.keys := by
  simp only [mem_keys, find?_insert]
  split
  · next h => simp [h]
  · next h => simp [h]

/-- Two entries with one key are the same entry. -/
theorem entries_inj {m : OrdMap κ ν} {e e' : κ × ν} (h : e ∈ m.entries) (h' : e' ∈ m.entries)
    (hk : e.1 = e'.1) : e = e' := by
  have h1 := find?_eq_some.2 h
  have h2 := find?_eq_some.2 h'
  rw [hk, h2] at h1
  exact Prod.ext hk (Option.some.inj h1).symm

/-! ## Neighbours -/

/-- The entry below a key is one of the map; every other entry below the key has a smaller key. -/
theorem below_eq_some {m : OrdMap κ ν} {k : κ} {e : κ × ν} (h : m.below k = some e) :
    e ∈ m.entries ∧ e.1 < k ∧ ∀ e' ∈ m.entries, e'.1 < k → e' = e ∨ e'.1 < e.1 := by
  obtain ⟨init, hsplit⟩ := List.getLast?_eq_some_iff.1 h
  have hmem : e ∈ m.entries.filter (·.1 < k) := by rw [hsplit]; simp
  have hsort : (init ++ [e]).Pairwise (·.1 < ·.1) := hsplit ▸ m.sorted.filter _
  simp only [List.mem_filter, decide_eq_true_eq] at hmem
  refine ⟨hmem.1, hmem.2, fun e' he' hlt => ?_⟩
  have : e' ∈ init ++ [e] := hsplit ▸ List.mem_filter.2 ⟨he', by simpa using hlt⟩
  rcases List.mem_append.1 this with hi | hi
  · exact .inr ((List.pairwise_append.1 hsort).2.2 e' hi e (by simp))
  · exact .inl (List.mem_singleton.1 hi)

/-- Where no entry is found below a key, no key of the map is below it. -/
theorem below_eq_none {m : OrdMap κ ν} {k : κ} (h : m.below k = none) :
    ∀ e ∈ m.entries, ¬ e.1 < k := by
  have := List.getLast?_eq_none_iff.1 h
  simpa using this

/-- The entry from a key on is one of the map; every other entry from there on has a greater key.
The entries are in the order of their keys. -/
theorem atLeast_eq_some {m : OrdMap κ ν} {k : κ} {e : κ × ν} (h : m.atLeast k = some e) :
    e ∈ m.entries ∧ k ≤ e.1 ∧ ∀ e' ∈ m.entries, k ≤ e'.1 → e' = e ∨ e.1 < e'.1 := by
  obtain ⟨hk, xs, ys, hsplit, hxs⟩ := List.find?_eq_some_iff_append.1 h
  have hk : k ≤ e.1 := by simpa using hk
  refine ⟨by rw [hsplit]; simp, hk, fun e' he' hle => ?_⟩
  have hsort := m.sorted
  rw [hsplit] at he' hsort
  rcases List.mem_append.1 he' with hx | hx
  · exact absurd hle (by simpa using hxs e' hx)
  · rcases List.mem_cons.1 hx with rfl | hx
    · exact .inl rfl
    · exact .inr ((List.pairwise_cons.1 (List.pairwise_append.1 hsort).2.1).1 e' hx)

/-- Where no entry is found from a key on, every key of the map is below it. -/
theorem atLeast_eq_none {m : OrdMap κ ν} {k : κ} (h : m.atLeast k = none) :
    ∀ e ∈ m.entries, ¬ k ≤ e.1 := by
  simpa [atLeast] using h

end OrdMap

/-! ## Binary search -/

section
variable {α : Type}

/-- The halving loop of the search: `size` elements from `base` on are left. Each round halves the
range and keeps what is sought within it. -/
def searchLoop (f : α → Ordering) (l : List α) : Nat → Nat → Nat → Nat
  | 0, base, _ => base
  | fuel + 1, base, size =>
    if size ≤ 1 then base
    else
      let half := size / 2
      let mid := base + half
      let base := if (l[mid]?).any (f · = .gt) then base else mid
      searchLoop f l fuel base (size - half)

/-- Binary search by a comparison with the target: the index of an equal element, or the index
where one belongs. -/
def binarySearchBy (f : α → Ordering) (l : List α) : Except Nat Nat :=
  if l.length = 0 then .error 0
  else
    let base := searchLoop f l l.length 0 l.length
    match (l[base]?).map f with
    | some .eq => .ok base
    | some .lt => .error (base + 1)
    | _ => .error base

/-- The order of the comparison's results along a list that is sorted around the target. -/
def Ascending (f : α → Ordering) (l : List α) : Prop :=
  l.Pairwise fun a b => (f a = .gt → f b = .gt) ∧ (f b = .lt → f a = .lt)

/-- What the loop keeps: elements from the window's end on are greater than the target, and those
before its start are not greater. -/
def Window (f : α → Ordering) (l : List α) (base size : Nat) : Prop :=
  0 < size ∧ base + size ≤ l.length ∧
    (∀ i a, l[i]? = some a → base + size ≤ i → f a = .gt) ∧
    (0 < base → ∀ a, l[base]? = some a → f a ≠ .gt)

/-- Along an ascending list the comparison with the target stays `gt` once it is `gt`, and was `lt`
before wherever it is `lt`. -/
theorem Ascending.get {f : α → Ordering} {l : List α} (h : Ascending f l) {i j : Nat} {a b : α}
    (hij : i < j) (ha : l[i]? = some a) (hb : l[j]? = some b) :
    (f a = .gt → f b = .gt) ∧ (f b = .lt → f a = .lt) := by
  obtain ⟨hi, rfl⟩ := List.getElem?_eq_some_iff.1 ha
  obtain ⟨hj, rfl⟩ := List.getElem?_eq_some_iff.1 hb
  exact List.pairwise_iff_getElem.1 h i j hi hj hij

/-- The halving loop keeps its window until one element is left in it. The induction is on the fuel,
which is enough as long as it is not below the number of elements that are left. -/
theorem searchLoop_window {f : α → Ordering} {l : List α} (hl : Ascending f l) :
    ∀ {fuel base size}, size ≤ fuel → Window f l base size →
      Window f l (searchLoop f l fuel base size) 1 := by
  intro fuel
  induction fuel with
  | zero => intro base size hf hw; have := hw.1; omega
  | succ fuel ih =>
    intro base size hf ⟨hpos, hlen, hgt, hbase⟩
    unfold searchLoop
    split
    · next h1 =>
      obtain rfl : size = 1 := by omega
      exact ⟨hpos, hlen, hgt, hbase⟩
    · next h1 =>
      have hmid : base + size / 2 < l.length := by omega
      have hget : l[base + size / 2]? = some l[base + size / 2] := List.getElem?_eq_getElem hmid
      simp only [hget, Option.any_some, decide_eq_true_eq]
      refine ih (by omega) ?_
      split
      · next hg =>
        refine ⟨by omega, by omega, fun i a ha hi => ?_, hbase⟩
        rcases Nat.lt_or_ge i (base + size) with hlt | hge
        · rcases Nat.lt_or_ge (base + size / 2) i with hmi | him
          · exact (hl.get hmi hget ha).1 hg
          · obtain rfl : i = base + size / 2 := by omega
            rw [hget] at ha; cases ha; exact hg
        · exact hgt i a ha hge
      · next hg =>
        refine ⟨by omega, by omega, fun i a ha hi => hgt i a ha (by omega), fun _ a ha => ?_⟩
        rw [hget] at ha; cases ha; exact hg

/-- A found index holds an equal element. -/
theorem binarySearchBy_ok {f : α → Ordering} {l : List α} {i : Nat}
    (h : binarySearchBy f l = .ok i) : ∃ a, l[i]? = some a ∧ f a = .eq := by
  unfold binarySearchBy at h
  split at h
  · cases h
  · dsimp only at h
    split at h
    · next hm => cases h; simpa [Option.map_eq_some_iff] using hm
    · cases h
    · cases h

/-- A search that finds nothing over an ascending list has no equal element to find. Everything on
one side of the last place that was looked at is smaller, and everything on the other side is
greater. -/
theorem binarySearchBy_error {f : α → Ordering} {l : List α} (hl : Ascending f l) {i : Nat}
    (h : binarySearchBy f l = .error i) : ∀ a ∈ l, f a ≠ .eq := by
  unfold binarySearchBy at h
  split at h
  · next h0 => intro a ha; rw [List.length_eq_zero_iff.1 h0] at ha; cases ha
  · next h0 =>
    have hw : Window f l 0 l.length :=
      ⟨by omega, by omega, fun i a ha hi => by have := (List.getElem?_eq_some_iff.1 ha).1; omega,
        fun hc => by omega⟩
    obtain ⟨-, hb, hgt, hbase⟩ := searchLoop_window hl (Nat.le_refl _) hw
    dsimp only at h
    generalize searchLoop f l l.length 0 l.length = base at h hb hgt hbase
    have hget : l[base]? = some l[base] := List.getElem?_eq_getElem (by omega)
    intro a ha heq
    obtain ⟨j, hj, rfl⟩ := List.getElem_of_mem ha
    have hgj : l[j]? = some l[j] := List.getElem?_eq_getElem hj
    rcases Nat.lt_trichotomy j base with hlt | rfl | hlt
    · have h1 := hl.get hlt hgj hget
      cases hc : f l[base] with
      | lt => exact absurd (h1.2 hc) (by simp [heq])
      | eq => simp [hget, hc] at h
      | gt => exact hbase (by omega) _ hget hc
    · simp [hget, heq] at h
    · exact absurd (hgt j _ hgj (by omega)) (by simp [heq])

/-- Over an ascending list the search finds an element equal to the target when there is one. -/
theorem binarySearchBy_isOk {f : α → Ordering} {l : List α} (hl : Ascending f l) {a : α}
    (ha : a ∈ l) (hf : f a = .eq) : ∃ i, binarySearchBy f l = .ok i := by
  cases h : binarySearchBy f l with
  | ok i => exact ⟨i, rfl⟩
  | error i => exact absurd hf (binarySearchBy_error hl h a ha)

end

end Lib
