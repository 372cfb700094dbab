import Mathlib.Data.List.GetD
import Mathlib.Data.Nat.Digits.Lemmas

/-!
# Numerals

A number in a radix from 2 to 36, with the digits `0`..`9` and `A`..`Z`. `readNumeral` is the
meaning of a text, `IsNumeral` says that a text is the numeral of a number, and `numeral` is that
text, from the digits of Mathlib's `Nat.digits` (the lowest one first).
-/

/-- The character of a digit below 36. -/
def digitChar (d : Nat) : UInt8 := if d < 10 then UInt8.ofNat (48 + d) else UInt8.ofNat (55 + d)

/-- The digit that a character stands for. -/
def digitOf (c : UInt8) : Option Nat :=
  if 48 ≤ c.toNat ∧ c.toNat < 58 then some (c.toNat - 48)
  else if 65 ≤ c.toNat ∧ c.toNat < 91 then some (c.toNat - 55)
  else none

/-- The number that a text stands for, if all its characters are digits of the radix. -/
def readNumeral (radix : Nat) (text : List UInt8) : Option Nat :=
  text.foldlM (fun v c => ((digitOf c).filter (· < radix)).map fun d => v * radix + d) 0

/-- The text is the numeral of `value`: it stands for that number and has no leading zero, unless it
is `0` itself. -/
structure IsNumeral (radix value : Nat) (text : List UInt8) : Prop where
  reads : readNumeral radix text = some value
  digits : ∀ c ∈ text, ∃ d, digitOf c = some d ∧ d < radix
  nonempty : text ≠ []
  leading : text.head? = some (digitChar 0) → value = 0 ∧ text = [digitChar 0]

/-- The numeral of `value`. -/
def numeral (radix value : Nat) : List UInt8 :=
  if value = 0 then [digitChar 0] else ((Nat.digits radix value).map digitChar).reverse

/-- The `k` lowest digits of `value`, zeros included. -/
def fixedNumeral (radix k value : Nat) : List UInt8 :=
  ((List.range k).map fun i => digitChar (value / radix ^ i % radix)).reverse

/-- The numeral of an integer, with its sign (`-` is character 45). -/
def intNumeral (radix : Nat) (i : Int) : List UInt8 :=
  if i < 0 then 45 :: numeral radix i.natAbs else numeral radix i.natAbs

section Digits

variable {d : Nat}

theorem digitOf_digitChar (h : d < 36) : digitOf (digitChar d) = some d := by
  interval_cases d <;> rfl

theorem digitChar_inj {e : Nat} (hd : d < 36) (he : e < 36) (h : digitChar d = digitChar e) :
    d = e := by
  have := digitOf_digitChar hd
  rw [h, digitOf_digitChar he] at this
  exact (Option.some.inj this).symm

theorem digitChar_ne_zero (h : d < 36) : digitChar d ≠ 0 := by
  interval_cases d <;> decide

end Digits

section Numerals

variable {radix value : Nat}

/-- The digits from the highest one on stand for the number. -/
theorem readNumeral_reverse {digits : List Nat} (hr : radix ≤ 36) (h : ∀ d ∈ digits, d < radix) :
    readNumeral radix (digits.map digitChar).reverse = some (Nat.ofDigits radix digits) := by
  induction digits with
  | nil => rfl
  | cons d digits ih =>
    obtain ⟨hd, hrest⟩ := List.forall_mem_cons.mp h
    have hread := ih hrest
    unfold readNumeral at hread ⊢
    rw [List.map_cons, List.reverse_cons, List.foldlM_append, hread]
    simp only [Option.bind_eq_bind, Option.bind_some, List.foldlM_cons, List.foldlM_nil,
      digitOf_digitChar (Nat.lt_of_lt_of_le hd hr)]
    simp [Option.filter, hd, Nat.ofDigits_cons]
    ring

theorem numeral_of_ne (h : value ≠ 0) :
    numeral radix value = ((Nat.digits radix value).map digitChar).reverse := if_neg h

/-- Every character of a numeral is a digit of the radix. -/
theorem mem_numeral (h2 : 2 ≤ radix) {c : UInt8} (hc : c ∈ numeral radix value) :
    ∃ d, c = digitChar d ∧ d < radix := by
  unfold numeral at hc
  split at hc
  · exact ⟨0, by simpa using hc, by omega⟩
  · obtain ⟨d, hd, rfl⟩ := List.mem_map.mp (List.mem_reverse.mp hc)
    exact ⟨d, rfl, Nat.digits_lt_base (by omega) hd⟩

theorem zero_notMem_numeral (h2 : 2 ≤ radix) (hr : radix ≤ 36) (value : Nat) :
    0 ∉ numeral radix value := by
  intro h
  obtain ⟨d, hd, hlt⟩ := mem_numeral h2 h
  exact digitChar_ne_zero (Nat.lt_of_lt_of_le hlt hr) hd.symm

theorem isNumeral_numeral (h2 : 2 ≤ radix) (hr : radix ≤ 36) (value : Nat) :
    IsNumeral radix value (numeral radix value) := by
  have hdigits : ∀ c ∈ numeral radix value, ∃ d, digitOf c = some d ∧ d < radix := by
    intro c hc
    obtain ⟨d, rfl, hd⟩ := mem_numeral h2 hc
    exact ⟨d, digitOf_digitChar (by omega), hd⟩
  by_cases hv : value = 0
  · subst hv
    have hread : readNumeral radix ([0].map digitChar).reverse = some (Nat.ofDigits radix [0]) :=
      readNumeral_reverse hr (by simp; omega)
    exact ⟨by simpa [numeral] using hread, hdigits, by simp [numeral], fun _ => ⟨rfl, rfl⟩⟩
  · have hne := Nat.digits_ne_nil_iff_ne_zero (b := radix).mpr hv
    have hlt : ∀ d ∈ Nat.digits radix value, d < radix :=
      fun d hd => Nat.digits_lt_base (by omega) hd
    refine ⟨?_, hdigits, by simp [numeral_of_ne hv, hne], ?_⟩
    · rw [numeral_of_ne hv, readNumeral_reverse hr hlt, Nat.ofDigits_digits]
    · -- the highest digit is not 0
      intro hhead
      rw [numeral_of_ne hv, List.head?_reverse, List.getLast?_map,
        List.getLast?_eq_getLast_of_ne_nil hne] at hhead
      have hlast := List.getLast_mem hne
      have := digitChar_inj (Nat.lt_of_lt_of_le (hlt _ hlast) hr) (by omega)
        (Option.some.inj hhead)
      exact absurd this (Nat.getLast_digit_ne_zero radix hv)

/-- A number below `radix ^ k` has at most `k` digits. -/
theorem length_numeral_le (h2 : 2 ≤ radix) {k : Nat} (hk : 0 < k) (h : value < radix ^ k) :
    (numeral radix value).length ≤ k := by
  unfold numeral
  split
  · exact hk
  · rw [List.length_reverse, List.length_map]
    exact (Nat.digits_length_le_iff (by omega) value).mpr h

/-- The digits of a numeral from the lowest one on, and zeros behind the highest one. -/
theorem getD_numeral (h2 : 2 ≤ radix) (value i : Nat) :
    (numeral radix value).reverse.getD i (digitChar 0) =
      digitChar (value / radix ^ i % radix) := by
  by_cases hv : value = 0
  · subst hv
    cases i <;> simp [numeral]
  · rw [numeral_of_ne hv, List.reverse_reverse, List.getD_map, Nat.getD_digits _ _ h2]

/-- A numeral with zeros in front. -/
theorem padded_numeral (h2 : 2 ≤ radix) {k : Nat} (hk : 0 < k) (h : value < radix ^ k) :
    List.replicate (k - (numeral radix value).length) (digitChar 0) ++ numeral radix value =
      fixedNumeral radix k value := by
  have hlen := length_numeral_le h2 hk h
  apply List.reverse_injective
  unfold fixedNumeral
  rw [List.reverse_reverse, List.reverse_append, List.reverse_replicate]
  apply List.ext_getElem
  · simp
    omega
  · intro i _ hi
    have hdigit := getD_numeral h2 value i
    simp only [List.length_map, List.length_range] at hi
    rw [List.getElem_map, List.getElem_range, ← hdigit]
    by_cases hin : i < (numeral radix value).reverse.length
    · rw [List.getElem_append_left hin, List.getD_eq_getElem _ _ hin]
    · rw [List.getElem_append_right (Nat.not_lt.mp hin), List.getElem_replicate,
        List.getD_eq_default _ _ (Nat.not_lt.mp hin)]

end Numerals
