import Mathlib

/-!
# Segments between separators

A list is cut at a separator by `List.splitOn` and put together again by `List.intercalate`. No
segment contains the separator, and a separator at an end leaves an empty one. `splitOn_prefix_iff`
relates the two ways to say that one list leads to another: its segments are the first ones of the
other's, or the other continues it behind a separator.
-/

namespace Lib

section
variable {α : Type}

/-- Two joined texts with a separator between them are the joined text of both lists, unless one of
these is empty. -/
theorem intercalate_append {sep : List α} {xs ys : List (List α)} (hx : xs ≠ []) (hy : ys ≠ []) :
    sep.intercalate (xs ++ ys) = sep.intercalate xs ++ sep ++ sep.intercalate ys := by
  induction xs with
  | nil => exact absurd rfl hx
  | cons x xs ih =>
    by_cases hxs : xs = []
    · rw [hxs, List.singleton_append, List.intercalate_cons_of_ne_nil hy,
        List.intercalate_singleton]
    · rw [List.cons_append, List.intercalate_cons_of_ne_nil (by simp [hxs]), ih hxs,
        List.intercalate_cons_of_ne_nil hxs]
      simp only [List.append_assoc]

/-- What stands in a segment stands in the joined text. The induction is on the segments. -/
theorem mem_intercalate_of_mem {c : α} {xs : List (List α)} {x : List α} (hx : x ∈ xs) {a : α}
    (ha : a ∈ x) : a ∈ [c].intercalate xs := by
  obtain ⟨front, back, rfl⟩ := List.append_of_mem hx
  have hmem : a ∈ [c].intercalate (x :: back) := by
    by_cases hback : back = []
    · rwa [hback, List.intercalate_singleton]
    · rw [List.intercalate_cons_of_ne_nil hback]
      simp [ha]
  by_cases hfront : front = []
  · rwa [hfront, List.nil_append]
  · rw [intercalate_append hfront (by simp)]
    exact List.mem_append_right _ hmem

/-- What stands in the joined text is the separator, or stands in a segment. The induction is on the
segments. -/
theorem eq_or_mem_of_mem_intercalate {c : α} {xs : List (List α)} {a : α}
    (ha : a ∈ [c].intercalate xs) : a = c ∨ ∃ x ∈ xs, a ∈ x := by
  induction xs with
  | nil => cases ha
  | cons x xs ih =>
    by_cases hxs : xs = []
    · rw [hxs, List.intercalate_singleton] at ha
      exact .inr ⟨x, by simp, ha⟩
    · rw [List.intercalate_cons_of_ne_nil hxs, List.mem_append, List.mem_append,
        List.mem_singleton] at ha
      rcases ha with (ha | rfl) | ha
      · exact .inr ⟨x, by simp, ha⟩
      · exact .inl rfl
      · exact (ih ha).imp_right fun hmem => hmem.imp fun y hy => ⟨.tail _ hy.1, hy.2⟩

variable [DecidableEq α] {c : α} {s t : List α}

/-- No segment of a text that was split has the separator in it. The induction is on the text, and
each character either ends a segment or joins one. -/
theorem not_mem_of_mem_splitOn {x : List α} (hx : x ∈ s.splitOn c) : c ∉ x := by
  induction s generalizing x with
  | nil =>
    rw [List.splitOn_nil, List.mem_singleton] at hx
    rw [hx]
    exact List.not_mem_nil
  | cons a s ih =>
    rw [List.splitOn_cons_eq_if_modifyHead] at hx
    split at hx
    · rcases List.mem_cons.1 hx with rfl | hx
      · simp
      · exact ih hx
    · next hne =>
      obtain ⟨first, rest, hsplit⟩ := List.exists_cons_of_ne_nil (List.splitOn_ne_nil c s)
      rw [hsplit] at hx ih
      rcases List.mem_cons.1 hx with rfl | hx
      · rw [List.mem_cons, not_or]
        exact ⟨fun heq => hne (beq_iff_eq.2 heq.symm), ih (List.mem_cons_self ..)⟩
      · exact ih (.tail _ hx)

/-- A separator at an end of a text leaves an empty segment. -/
theorem nil_mem_splitOn (h : s.head? = some c ∨ s.getLast? = some c) : [] ∈ s.splitOn c := by
  rcases h with h | h
  · obtain ⟨rest, rfl⟩ := List.head?_eq_some_iff.1 h
    rw [← List.nil_append (c :: rest), List.splitOn_append_cons_self]
    simp
  · obtain ⟨front, rfl⟩ := List.getLast?_eq_some_iff.1 h
    rw [List.splitOn_append_cons_self]
    simp

/-- The segments of `s` are a proper prefix of those of `t` exactly when a separator follows `s`
in `t`. -/
theorem splitOn_prefix_iff :
    s.splitOn c <+: t.splitOn c ∧ s.splitOn c ≠ t.splitOn c ↔ ∃ rest, t = s ++ c :: rest := by
  refine ⟨fun h => ?_, fun h => ?_⟩
  · obtain ⟨⟨later, hlater⟩, hne⟩ := h
    have hlater_ne : later ≠ [] := by
      intro hnil
      rw [hnil, List.append_nil] at hlater
      exact hne hlater
    refine ⟨[c].intercalate later, ?_⟩
    calc t = [c].intercalate (t.splitOn c) := (List.intercalate_splitOn c).symm
      _ = [c].intercalate (s.splitOn c ++ later) := by rw [hlater]
      _ = s ++ c :: [c].intercalate later := by
        rw [intercalate_append (List.splitOn_ne_nil c s) hlater_ne, List.intercalate_splitOn,
          List.append_assoc, List.singleton_append]
  · obtain ⟨rest, rfl⟩ := h
    rw [List.splitOn_append_cons_self]
    refine ⟨List.prefix_append _ _, fun heq => ?_⟩
    exact List.splitOn_ne_nil c rest (List.self_eq_append_right.1 heq)

/-! ## Beginnings -/

omit [DecidableEq α] in
/-- The first beginning of a list is the empty one. -/
theorem inits_eq_cons (xs : List α) : xs.inits = [] :: xs.inits.tail := by
  cases xs <;> simp

omit [DecidableEq α] in
/-- Each beginning of a list is one of the later ones. -/
theorem inits_pairwise (xs : List α) : xs.inits.Pairwise fun a b => a <+: b ∧ a ≠ b := by
  induction xs with
  | nil => simp
  | cons x xs ih =>
    rw [List.inits_cons, List.pairwise_cons, List.pairwise_map]
    refine ⟨fun start hstart => ?_, ih.imp fun h => ?_⟩
    · obtain ⟨_, -, rfl⟩ := List.mem_map.1 hstart
      exact ⟨List.nil_prefix, by simp⟩
    · exact ⟨List.cons_prefix_cons.2 ⟨rfl, h.1⟩, fun heq => h.2 (List.cons.inj heq).2⟩

omit [DecidableEq α] in
/-- The other beginnings of a list are not empty. -/
theorem ne_nil_of_mem_tail_inits {xs start : List α} (h : start ∈ xs.inits.tail) : start ≠ [] := by
  cases xs with
  | nil => cases h
  | cons x xs =>
    rw [List.inits_cons, List.tail_cons] at h
    obtain ⟨_, -, rfl⟩ := List.mem_map.1 h
    simp

/-- The strict nonempty beginnings of a list are the nonempty ones of all but its last element. Of
the beginnings of a list these are all but the empty one and the list itself. -/
theorem filter_inits {xs : List α} (hne : xs ≠ []) :
    xs.inits.filter (fun start => start ≠ [] ∧ start ≠ xs) = xs.dropLast.inits.tail := by
  have hlast := List.dropLast_append_getLast hne
  have hinits : xs.inits = [] :: xs.dropLast.inits.tail ++ [xs] := by
    rw [← inits_eq_cons]
    nth_rewrite 1 [← hlast]
    rw [List.inits_append]
    simp [hlast]
  rw [hinits, List.filter_append, List.filter_cons_of_neg (by simp), List.filter_cons_of_neg (by simp),
    List.filter_nil, List.append_nil, List.filter_eq_self]
  intro start hstart
  have hprefix : start <+: xs.dropLast := (List.mem_inits _ _).1 (List.mem_of_mem_tail hstart)
  have hlength := hprefix.length_le
  rw [List.length_dropLast] at hlength
  have hpos := List.length_pos_iff.2 hne
  simpa using ⟨ne_nil_of_mem_tail_inits hstart, fun heq => by rw [heq] at hlength; omega⟩

end

end Lib
