import Mathlib.Order.Lattice

/-!
# The first entry of a table

A search of a table from its lowest index on, for the first index with a property: what it finds
is the lowest one (`find?_lowest`), and it finds one if there is one (`find?_of_mem`).
-/

namespace Search

variable {α : Type} {l : List α} {p : α → Bool} {a : α}

/-- What the search finds is the lowest index with the property. -/
theorem find?_lowest [LinearOrder α] (hl : l.Pairwise (· < ·)) (h : l.find? p = some a) :
    a ∈ l ∧ p a = true ∧ ∀ b ∈ l, b < a → p b = false := by
  obtain ⟨hp, as, bs, rfl, has⟩ := List.find?_eq_some_iff_append.mp h
  refine ⟨by simp, hp, fun b hb hlt => ?_⟩
  rcases List.mem_append.mp hb with hb | hb
  · simpa using has b hb
  · rcases List.mem_cons.mp hb with rfl | hb
    · exact absurd hlt (lt_irrefl _)
    · have hab := List.rel_of_pairwise_cons (List.pairwise_append.mp hl).2.1 hb
      exact absurd hlt (not_lt_of_gt hab)

/-- The search finds something if there is something to find. -/
theorem find?_of_mem (ha : a ∈ l) (hp : p a = true) : ∃ b, l.find? p = some b := by
  rw [← Option.isSome_iff_exists, List.find?_isSome]
  exact ⟨a, ha, hp⟩

end Search
