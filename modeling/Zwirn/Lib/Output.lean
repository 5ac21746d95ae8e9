import Zwirn.Lib.Outcome
import Zwirn.Lib.Utf8

/-!
# Line output

A `LineWriter` writes a line at a time, and may fail at any of them. A list of lines is written up
to the first that fails, and stands behind what was written before (`LineWriter.writeLines_eq_ok`).
The bytes that lines are printed as give the lines back, if no line holds a newline
(`printed_injective`).
-/

namespace Lib

/-- Sequences can be put in brackets in either way. -/
theorem Run.bind_bind {σ ε α β γ : Type} (x : Run σ ε α) (f : α → Run σ ε β) (g : β → Run σ ε γ) :
    (x >>= f) >>= g = x >>= fun a => f a >>= g := by
  funext s
  rw [Run.bind_apply, Run.bind_apply, Run.bind_apply]
  cases x s with
  | mk r t => cases r <;> rfl

/-! ## Lines as bytes -/

/-- The bytes of lines, each with a newline behind it. -/
def printed (lines : List Str) : Bytes := lines.flatMap fun line => encode (line ++ ['\n'])

/-- A text in front of a separator that is not in it is what stands before the first separator. -/
theorem takeWhile_ne_append {sep : Char} {a b : Str} (h : sep ∉ a) :
    (a ++ sep :: b).takeWhile (· ≠ sep) = a := by
  have hall : ∀ c ∈ a, decide (c ≠ sep) = true := by
    intro c hc
    rw [decide_eq_true_eq]
    rintro rfl
    exact h hc
  rw [List.takeWhile_append_of_pos hall, List.takeWhile_cons_of_neg (by simp), List.append_nil]

/-- Lines are printed one behind the other, as one text. -/
theorem printed_eq (lines : List Str) :
    printed lines = encode (lines.flatMap fun line => line ++ ['\n']) := by
  induction lines with
  | nil => rfl
  | cons line lines ih =>
    rw [List.flatMap_cons, encode_append, ← ih]
    rfl

/-- A text that ends each line with a newline has one split into lines without newlines. The first
newline ends the first line, and the rest is split by induction. -/
theorem flatMap_newline_injective {lines lines' : List Str} (h : ∀ line ∈ lines, '\n' ∉ line)
    (h' : ∀ line ∈ lines', '\n' ∉ line)
    (heq : (lines.flatMap fun line => line ++ ['\n']) = lines'.flatMap fun line => line ++ ['\n']) :
    lines = lines' := by
  induction lines generalizing lines' with
  | nil =>
    cases lines' with
    | nil => rfl
    | cons line' lines' => simp at heq
  | cons line lines ih =>
    cases lines' with
    | nil => simp at heq
    | cons line' lines' =>
      simp only [List.flatMap_cons, List.append_assoc, List.singleton_append] at heq
      -- both texts have their first line in front of the first newline
      have hline : line = line' := by
        have hfirst := congrArg (List.takeWhile (· ≠ '\n')) heq
        rwa [takeWhile_ne_append (h line List.mem_cons_self),
          takeWhile_ne_append (h' line' List.mem_cons_self)] at hfirst
      subst hline
      rw [List.append_cancel_left_eq, List.cons.injEq] at heq
      rw [ih (fun l hl => h l (List.mem_cons_of_mem _ hl))
        (fun l hl => h' l (List.mem_cons_of_mem _ hl)) heq.2]

/-- The bytes that lines without newlines are printed as determine the lines. -/
theorem printed_injective {lines lines' : List Str} (h : ∀ line ∈ lines, '\n' ∉ line)
    (h' : ∀ line ∈ lines', '\n' ∉ line) (heq : printed lines = printed lines') :
    lines = lines' := by
  rw [printed_eq, printed_eq] at heq
  exact flatMap_newline_injective h h' (encode_injective heq)

/-! ## Writing lines -/

/-- What lines are written to. -/
structure LineWriter (ω ε : Type) where
  writeLine : Str → Run ω ε Unit
  /-- The lines that have been written. -/
  lines : ω → List Str
  wrote : ∀ line s t, writeLine line s = (.ok (), t) → lines t = lines s ++ [line]

namespace LineWriter
variable {ω ε : Type} {w : LineWriter ω ε} {lines : List Str} {s t : ω}

/-- Writes lines until one fails. -/
def writeLines (w : LineWriter ω ε) (lines : List Str) : Run ω ε Unit := lines.forM w.writeLine

/-- A list of lines is written by its first line and then the others. -/
theorem writeLines_cons (w : LineWriter ω ε) (line : Str) (lines : List Str) :
    w.writeLines (line :: lines) = w.writeLine line >>= fun _ => w.writeLines lines := rfl

/-- Lines that could all be written stand behind those written before. -/
theorem writeLines_eq_ok (h : w.writeLines lines s = (.ok (), t)) :
    w.lines t = w.lines s ++ lines := by
  induction lines generalizing s with
  | nil =>
    obtain rfl : s = t := congrArg Prod.snd h
    rw [List.append_nil]
  | cons line lines ih =>
    rw [writeLines_cons, Run.bind_eq_ok] at h
    obtain ⟨_, u, hline, hlines⟩ := h
    rw [ih hlines, w.wrote _ _ _ hline, List.append_assoc, List.singleton_append]

/-- Lines are written one list behind the other. A failure in the first list is one of the whole. -/
theorem writeLines_append (w : LineWriter ω ε) (lines lines' : List Str) :
    w.writeLines (lines ++ lines') = w.writeLines lines >>= fun _ => w.writeLines lines' := by
  funext s
  induction lines generalizing s with
  | nil => rfl
  | cons line lines ih =>
    rw [List.cons_append, writeLines_cons, writeLines_cons, Run.bind_apply, Run.bind_apply,
      Run.bind_apply]
    cases w.writeLine line s with
    | mk r t =>
      cases r with
      | ok a => exact ih t
      | error e => rfl

end LineWriter

end Lib
