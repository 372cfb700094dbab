import Mathlib.Data.List.Basic

/-!
# Reading a list in pieces

A cursor stands at a position of a list. A read gets the next `c` elements, or what is left of
them, and moves the cursor behind them; a read at the end gets nothing and moves it back to the
start. `reads_spec` says what the reads up to the end get: the list, piece by piece.
-/

namespace Cursor

variable {α : Type} (l : List α) (c : Nat)

/-- What a read gets. -/
def piece (pos : Nat) : List α := (l.drop pos).take c

/-- Where the cursor stands after a read. -/
def next (pos : Nat) : Nat := if piece l c pos = [] then 0 else pos + (piece l c pos).length

/-- The pieces that some reads get, and where the cursor stands after them. -/
def reads : Nat → Nat → List (List α) × Nat
  | 0, pos => ([], pos)
  | n + 1, pos =>
    let r := reads n (next l c pos)
    (piece l c pos :: r.1, r.2)

variable {l c} {pos : Nat}

theorem length_piece : (piece l c pos).length = min c (l.length - pos) := by
  simp [piece]

/-- There is nothing to read at the end, and only there. -/
theorem piece_eq_nil_iff (hc : 0 < c) : piece l c pos = [] ↔ l.length ≤ pos := by
  rw [← List.length_eq_zero_iff, length_piece]
  omega

theorem next_of_lt (hc : 0 < c) (h : pos < l.length) : next l c pos = min (pos + c) l.length := by
  have hne : ¬ piece l c pos = [] := by
    rw [piece_eq_nil_iff hc]
    omega
  rw [next, if_neg hne, length_piece]
  omega

/-- At the end the cursor goes back. -/
theorem next_of_le (hc : 0 < c) (h : l.length ≤ pos) : next l c pos = 0 :=
  if_pos ((piece_eq_nil_iff hc).mpr h)

/-- **Reads that begin before the end** get nonempty pieces, which are the list from the cursor
on. -/
theorem reads_spec (hc : 0 < c) (n pos : Nat) (hp : pos ≤ l.length)
    (hn : pos + c * n < l.length + c) :
    (∀ p ∈ (reads l c n pos).1, p ≠ []) ∧
      (reads l c n pos).1.flatten = (l.drop pos).take (c * n) ∧
      (reads l c n pos).2 = min (pos + c * n) l.length := by
  induction n generalizing pos with
  | zero =>
    simp only [reads, Nat.mul_zero, List.take_zero, List.flatten_nil, true_and, List.not_mem_nil,
      false_implies, implies_true]
    omega
  | succ n ih =>
    rw [Nat.mul_succ] at hn ⊢
    have hlt : pos < l.length := by omega
    have hnext := next_of_lt hc hlt
    obtain ⟨hne, hflat, hpos⟩ := ih (next l c pos) (by omega) (by omega)
    simp only [reads]
    refine ⟨fun p hp => ?_, ?_, ?_⟩
    · cases List.mem_cons.mp hp with
      | inl h =>
        rw [h, ne_eq, piece_eq_nil_iff hc]
        omega
      | inr h => exact hne p h
    · rw [List.flatten_cons, hflat, hnext, Nat.add_comm (c * n), List.take_add, List.drop_drop, piece]
      congr 1
      by_cases hlast : pos + c ≤ l.length
      · rw [Nat.min_eq_left hlast]
      · rw [List.drop_eq_nil_of_le (by omega), List.drop_eq_nil_of_le (by omega)]
    · rw [hpos, hnext]
      omega

/-- The number of reads that get something. -/
theorem reads_ceil (hc : 0 < c) :
    c * ((l.length + c - 1) / c) < l.length + c ∧ l.length ≤ c * ((l.length + c - 1) / c) := by
  have hdm := Nat.div_add_mod (l.length + c - 1) c
  have hmod := Nat.mod_lt (l.length + c - 1) hc
  omega

end Cursor
