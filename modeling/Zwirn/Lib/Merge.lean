import Mathlib

/-!
# Three-way merges

`merge base a b` is the merge of two versions with their common base: the version that differs from
the base, if only one does, and nothing where both do in different ways. `merge_eq_some` says what
is merged.
-/

namespace Lib

section
variable {α : Type} [DecidableEq α] {base a b c : α}

/-- The version that changed, if the versions do not conflict. -/
def merge (base a b : α) : Option α :=
  if a = b then some a else if b = base then some a else if a = base then some b else none

/-- A merge is one of the versions, and the other one is the same or the base. Where both have
changed in different ways there is no merge. -/
theorem merge_eq_some :
    merge base a b = some c ↔ c = a ∧ (b = a ∨ b = base) ∨ c = b ∧ (a = b ∨ a = base) := by
  unfold merge
  split
  · next h => subst h; simp [eq_comm]
  · next h =>
    split
    · next hb => subst hb; simp [h, eq_comm]
    · next hb =>
      split
      · next ha => subst ha; simp [h, hb, eq_comm]
      · next ha => simp [h, hb, ha, Ne.symm h]

end

end Lib
