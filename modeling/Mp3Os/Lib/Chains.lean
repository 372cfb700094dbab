import Mathlib.Data.List.Nodup
import Mathlib.Logic.Function.Basic

/-!
# Families of parent chains

Nodes have a parent; the parent of a root is `stop`. A **chain** is what one visits from a node
upwards. A **forest** here is a family of chains, one from each of some given tops, that share no
node and together have exactly the nodes in use.

* `Forest.push`: a fresh node on top of one chain, with the old top as its parent.
* `Forest.pop`: the top of one chain goes, and its parent becomes the top.
* `Forest.congr`: only parents of nodes in use matter.
-/

namespace Chains

variable {α ι : Type}

/-- `Chain parent stop a l`: upwards from `a` one visits `l`, and then `stop`. -/
inductive Chain (parent : α → α) (stop : α) : α → List α → Prop
  | stop : Chain parent stop stop []
  | node {a : α} {l : List α} : a ≠ stop → Chain parent stop (parent a) l →
      Chain parent stop a (a :: l)

/-- The chains from the tops: without repetition, disjoint, and of the nodes in use. -/
structure Forest (parent : α → α) (stop : α) (used : α → Prop) (top : ι → α)
    (l : ι → List α) : Prop where
  chain : ∀ i, Chain parent stop (top i) (l i)
  nodup : ∀ i, (l i).Nodup
  disjoint : ∀ i j a, a ∈ l i → a ∈ l j → i = j
  used_iff : ∀ a, used a ↔ ∃ i, a ∈ l i

section Chain

variable {parent parent' : α → α} {stop a b : α} {l : List α}

theorem Chain.congr (h : Chain parent stop a l) (hp : ∀ b ∈ l, parent' b = parent b) :
    Chain parent' stop a l := by
  induction h with
  | stop => exact .stop
  | node hne _ ih =>
    refine .node hne ?_
    rw [hp _ (by simp)]
    exact ih fun b hb => hp b (by simp [hb])

theorem Chain.nil_iff (h : Chain parent stop a l) : l = [] ↔ a = stop := by
  cases h with
  | stop => simp
  | node hne _ => simp [hne]

/-- A chain from a node starts with it, and goes on from its parent. -/
theorem Chain.of_ne (h : Chain parent stop a l) (hne : a ≠ stop) :
    ∃ r, l = a :: r ∧ Chain parent stop (parent a) r := by
  cases h with
  | stop => exact absurd rfl hne
  | node _ hr => exact ⟨_, rfl, hr⟩

/-- No node of a chain without repetition is its own parent. -/
theorem Chain.parent_ne (h : Chain parent stop a l) (hl : l.Nodup) (hne : a ≠ stop) :
    parent a ≠ a := by
  intro hp
  obtain ⟨r, rfl, hr⟩ := h.of_ne hne
  rw [hp] at hr
  obtain ⟨r', rfl, -⟩ := hr.of_ne hne
  simp at hl

end Chain

section Forest

variable {parent parent' : α → α} {stop a : α} {used used' : α → Prop} {top : ι → α}
  {l : ι → List α} {i : ι}

theorem Forest.used_of_mem (h : Forest parent stop used top l) (ha : a ∈ l i) : used a :=
  (h.used_iff a).mpr ⟨i, ha⟩

theorem Forest.top_used (h : Forest parent stop used top l) (hne : top i ≠ stop) :
    used (top i) := by
  obtain ⟨r, hr, -⟩ := (h.chain i).of_ne hne
  exact h.used_of_mem (i := i) (by simp [hr])

/-- Different chains have different tops, unless they are empty. -/
theorem Forest.top_inj (h : Forest parent stop used top l) {j : ι} (hne : top i ≠ stop)
    (hij : top i = top j) : i = j := by
  obtain ⟨r, hr, -⟩ := (h.chain i).of_ne hne
  obtain ⟨r', hr', -⟩ := (h.chain j).of_ne (hij ▸ hne)
  exact h.disjoint i j (top i) (by simp [hr]) (by simp [hr', hij])

theorem Forest.congr (h : Forest parent stop used top l) (hp : ∀ a, used a → parent' a = parent a)
    (hu : ∀ a, used' a ↔ used a) : Forest parent' stop used' top l where
  chain i := (h.chain i).congr fun b hb => hp b (h.used_of_mem hb)
  nodup := h.nodup
  disjoint := h.disjoint
  used_iff a := (hu a).trans (h.used_iff a)

variable [DecidableEq ι]

/-- **A fresh node on top of chain `i`.** -/
theorem Forest.push (h : Forest parent stop used top l) (hne : a ≠ stop) (hfresh : ¬ used a)
    (hpa : parent' a = top i) (hp : ∀ b, b ≠ a → parent' b = parent b)
    (hu : ∀ b, used' b ↔ b = a ∨ used b) :
    Forest parent' stop used' (Function.update top i a)
      (Function.update l i (a :: l i)) := by
  have hnot : ∀ j, a ∉ l j := fun j hj => hfresh (h.used_of_mem hj)
  have hold : ∀ j, Chain parent' stop (top j) (l j) := fun j =>
    (h.chain j).congr fun b hb => hp b fun hba => hnot j (hba ▸ hb)
  have hmem : ∀ j b, b ∈ Function.update l i (a :: l i) j ↔ (j = i ∧ b = a) ∨ b ∈ l j := by
    intro j b
    by_cases hj : j = i
    · subst hj; simp
    · simp [hj]
  refine ⟨fun j => ?_, fun j => ?_, fun j k b hj hk => ?_, fun b => ?_⟩
  · by_cases hj : j = i
    · subst hj
      simp only [Function.update_self]
      exact .node hne (hpa ▸ hold j)
    · simpa [hj] using hold j
  · by_cases hj : j = i
    · subst hj
      simpa using ⟨hnot j, h.nodup j⟩
    · simpa [hj] using h.nodup j
  · rw [hmem] at hj hk
    rcases hj with ⟨rfl, rfl⟩ | hj <;> rcases hk with ⟨rfl, hb⟩ | hk
    · rfl
    · exact absurd hk (hnot k)
    · exact absurd (hb ▸ hj) (hnot j)
    · exact h.disjoint j k b hj hk
  · simp only [hu, hmem, h.used_iff, exists_or, exists_eq_left]

/-- **The top of chain `i` goes.** -/
theorem Forest.pop (h : Forest parent stop used top l) (hne : top i ≠ stop)
    (hp : ∀ b, b ≠ top i → parent' b = parent b) (hu : ∀ b, used' b ↔ used b ∧ b ≠ top i) :
    Forest parent' stop used' (Function.update top i (parent (top i)))
      (Function.update l i (l i).tail) := by
  obtain ⟨r, hr, hchain⟩ := (h.chain i).of_ne hne
  have hnodup := h.nodup i
  rw [hr, List.nodup_cons] at hnodup
  have hmem : ∀ j b, b ∈ Function.update l i (l i).tail j ↔ b ∈ l j ∧ b ≠ top i := by
    intro j b
    by_cases hj : j = i
    · subst hj
      simp only [Function.update_self, hr, List.tail_cons, List.mem_cons]
      constructor
      · exact fun hb => ⟨.inr hb, fun hbt => hnodup.1 (hbt ▸ hb)⟩
      · rintro ⟨rfl | hb, hbt⟩
        · exact absurd rfl hbt
        · exact hb
    · simp only [ne_eq, hj, not_false_eq_true, Function.update_of_ne]
      exact ⟨fun hb => ⟨hb, fun hbt => hj (h.disjoint j i b hb (by simp [hr, hbt]))⟩, fun hb => hb.1⟩
  refine ⟨fun j => ?_, fun j => ?_, fun j k b hj hk => ?_, fun b => ?_⟩
  · have hoff : ∀ b ∈ Function.update l i (l i).tail j, parent' b = parent b := fun b hb =>
      hp b ((hmem j b).mp hb).2
    by_cases hj : j = i
    · subst hj
      simp only [Function.update_self, hr, List.tail_cons] at hoff ⊢
      exact hchain.congr hoff
    · simp only [ne_eq, hj, not_false_eq_true, Function.update_of_ne] at hoff ⊢
      exact (h.chain j).congr hoff
  · by_cases hj : j = i
    · subst hj
      simpa [hr] using hnodup.2
    · simpa [hj] using h.nodup j
  · exact h.disjoint j k b ((hmem j b).mp hj).1 ((hmem k b).mp hk).1
  · simp only [hu, hmem, h.used_iff, exists_and_right]

end Forest

end Chains
