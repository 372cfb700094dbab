import Mathlib.Data.List.Infix
import Mathlib.Data.List.TakeWhile

/-!
# The lines of a text

A text is cut into lines at the occurrences of a separator (`List.splitOn`). `matching` are the lines
that a pattern occurs in, and `Short` says that every line is shorter than a bound. Both can be
computed from the start of the text on, a line at a time (`matching_line`, `short_line`).
-/

namespace Lines

variable {α : Type} [DecidableEq α] (sep : α) (s : List α)

/-- The lines in which `s` occurs. -/
def matching (text : List α) : List (List α) := (text.splitOn sep).filter fun l => s <:+: l

/-- Every line has less than `n` elements. -/
def Short (n : Nat) (text : List α) : Prop := ∀ l ∈ text.splitOn sep, l.length < n

instance (n : Nat) (text : List α) : Decidable (Short sep n text) :=
  inferInstanceAs (Decidable (∀ _ ∈ _, _))

variable {sep s} {l rest : List α} {n : Nat}

theorem splitOn_line (h : sep ∉ l) (rest : List α) :
    (l ++ sep :: rest).splitOn sep = l :: rest.splitOn sep := by
  rw [List.splitOn_append_cons_self, List.splitOn_eq_singleton h]
  rfl

theorem matching_line (h : sep ∉ l) (rest : List α) : matching sep s (l ++ sep :: rest) =
    (if s <:+: l then [l] else []) ++ matching sep s rest := by
  rw [matching, splitOn_line h, List.filter_cons]
  by_cases hs : s <:+: l
  · simp [hs, matching]
  · simp [hs, matching]

/-- The last line. -/
theorem matching_last (h : sep ∉ l) : matching sep s l = if s <:+: l then [l] else [] := by
  rw [matching, List.splitOn_eq_singleton h, List.filter_cons, List.filter_nil]
  by_cases hs : s <:+: l
  · simp [hs]
  · simp [hs]

theorem matching_nil (hs : s ≠ []) : matching sep s [] = [] := by
  rw [matching_last (List.not_mem_nil), if_neg]
  rwa [List.infix_nil]

theorem short_line (h : sep ∉ l) : Short sep n (l ++ sep :: rest) ↔ l.length < n ∧ Short sep n rest := by
  rw [Short, splitOn_line h, List.forall_mem_cons]
  rfl

/-- What stands before the first separator is no longer than the first line. -/
theorem Short.start (h : Short sep n (l ++ rest)) (hl : sep ∉ l) : l.length < n := by
  have hcut : rest.takeWhile (· ≠ sep) ++ rest.dropWhile (· ≠ sep) = rest :=
    List.takeWhile_append_dropWhile
  have hno : sep ∉ l ++ rest.takeWhile (· ≠ sep) := by
    intro hm
    rcases List.mem_append.mp hm with hm | hm
    · exact hl hm
    · simpa using List.mem_takeWhile_imp hm
  cases hd : rest.dropWhile (· ≠ sep) with
  | nil =>
    rw [hd, List.append_nil] at hcut
    rw [hcut] at hno
    have hlen := h _ (by rw [List.splitOn_eq_singleton hno]; exact List.mem_singleton_self _)
    rw [List.length_append] at hlen
    omega
  | cons b tail =>
    have hb : b = sep := by
      have hb := List.head?_dropWhile_not (· ≠ sep) rest
      rw [hd] at hb
      simpa using hb
    subst hb
    rw [← hcut, hd, ← List.append_assoc] at h
    have hlen := ((short_line hno).mp h).1
    rw [List.length_append] at hlen
    omega

end Lines
