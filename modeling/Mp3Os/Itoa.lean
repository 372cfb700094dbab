import Mp3Os.Console
import Mp3Os.Lib.Numerals

/-!
# `strlen`, `strrev` and `itoa` (`lib.c`)

`itoa` stores the digits of a number from the lowest one on, and a NUL behind them, and `strrev`
reverses them where they stand. Here both run on the buffer: `buf i` is `buf[i]`.

The digits are those of the numeral (`itoaLoop_eq`), the two-index loop turns them around for even
and odd lengths (`strrevGo_apply`), so the buffer gets the numeral (`itoaBuf_eq`) and keeps all
bytes behind it. `itoa`, which `printf` uses, is the string that is left in the buffer
(`itoa_eq_numeral`).
-/

namespace Mp3

/-- The loop of `strlen`; `none` while no NUL is found. -/
def strlenGo (s : Nat → UInt8) : Nat → Nat → Option Nat
  | 0, _ => none
  | fuel + 1, len => if s len = 0 then some len else strlenGo s fuel (len + 1)

/-- `strlen`. A string lies in a 32-bit address space. -/
def strlen (s : Nat → UInt8) : Option Nat := strlenGo s 4294967296 0

/-- The loop of `strrev`. -/
def strrevGo (s : Nat → UInt8) (beg last : Nat) : Nat → UInt8 :=
  if beg < last then
    let tmp := s last
    let s := Function.update s last (s beg)
    let s := Function.update s beg tmp
    strrevGo s (beg + 1) (last - 1)
  else s
termination_by last - beg

/-- `strrev`. For the empty string the last index is -1, and no more above 0 than 0 is. -/
def strrev (s : Nat → UInt8) : Option (Nat → UInt8) :=
  (strlen s).map fun len => strrevGo s 0 (len - 1)

/-- `lookup`. -/
def lookup : List UInt8 := lit
  ['0', '1', '2', '3', '4', '5', '6', '7', '8', '9', 'A', 'B', 'C', 'D', 'E', 'F', 'G', 'H', 'I',
   'J', 'K', 'L', 'M', 'N', 'O', 'P', 'Q', 'R', 'S', 'T', 'U', 'V', 'W', 'X', 'Y', 'Z']

/-- The digit loop of `itoa`: where `newbuf` ends, and the buffer. The division is unsigned, as
`newval` is. -/
def itoaLoop (radix : UInt32) : Nat → UInt32 → Nat → (Nat → UInt8) → Option (Nat × (Nat → UInt8))
  | 0, _, _, _ => none
  | fuel + 1, newval, newbuf, buf =>
    if newval > 0 then
      let i := newval % radix
      itoaLoop radix fuel (newval / radix) (newbuf + 1)
        (Function.update buf newbuf (lookup.getD i.toNat 0))
    else some (newbuf, buf)

/-- `itoa` on its buffer. With a radix from 2 on a 32-bit number has at most 32 digits, and with
radix 1 the loop does not end; a division by 0 faults. -/
def itoaBuf (value : UInt32) (buf : Nat → UInt8) (radix : UInt32) : Option (Nat → UInt8) :=
  if value = 0 then
    let buf := Function.update buf 0 (ch '0')
    some (Function.update buf 1 0)
  else if radix = 0 then none
  else
    (itoaLoop radix 33 value 0 buf).bind fun (newbuf, buf) => strrev (Function.update buf newbuf 0)

/-- The string at the start of a buffer is `text`. -/
structure HoldsString (s : Nat → UInt8) (text : List UInt8) : Prop where
  chars : ∀ i (h : i < text.length), s i = text[i]
  ends : s text.length = 0
  nonzero : 0 ∉ text

/-! ## Strings -/

section Strings

variable {s : Nat → UInt8} {text : List UInt8}

theorem strlenGo_eq (h : HoldsString s text) {fuel len : Nat} (hle : len ≤ text.length)
    (hfuel : text.length - len < fuel) : strlenGo s fuel len = some text.length := by
  induction fuel generalizing len with
  | zero => omega
  | succ fuel ih =>
    rw [strlenGo]
    rcases Nat.lt_or_eq_of_le hle with hlt | rfl
    · have hne : s len ≠ 0 := by
        rw [h.chars len hlt]
        exact fun h0 => h.nonzero (h0 ▸ List.getElem_mem hlt)
      rw [if_neg hne]
      exact ih hlt (by omega)
    · rw [if_pos h.ends]

theorem strlen_eq (h : HoldsString s text) (hlen : text.length < 4294967296) :
    strlen s = some text.length :=
  strlenGo_eq h (Nat.zero_le _) hlen

/-- A text without NUL is stored, and a NUL behind it. -/
theorem holdsString_overwrite (s : Nat → UInt8) {text : List UInt8} (h0 : 0 ∉ text) :
    HoldsString (Function.update (overwrite s 0 text) text.length 0) text := by
  refine ⟨fun i hi => ?_, Function.update_self .., h0⟩
  rw [Function.update_of_ne (by omega), overwrite_of_lt (Nat.zero_le i) hi]
  rfl

/-- The loop mirrors the bytes between its two indices. -/
theorem strrevGo_apply (s : Nat → UInt8) (beg last i : Nat) :
    strrevGo s beg last i = if beg ≤ i ∧ i ≤ last then s (beg + last - i) else s i := by
  fun_induction strrevGo s beg last with
  | case1 s beg last hlt tmp s₁ s₂ ih =>
    -- one round swaps the outer two, the loop mirrors what is between them
    have hswap : ∀ j, s₂ j = if j = beg then s last else if j = last then s beg else s j := by
      intro j
      simp only [s₂, s₁, tmp, Function.update_apply]
    rw [ih, hswap, hswap]
    have hmid : beg + 1 + (last - 1) - i = beg + last - i := by omega
    rw [hmid]
    by_cases hin : beg ≤ i ∧ i ≤ last
    · rw [if_pos hin]
      by_cases hb : i = beg
      · rw [if_neg (by omega), if_pos hb, hb, Nat.add_sub_cancel_left]
      by_cases hl : i = last
      · rw [if_neg (by omega), if_neg hb, if_pos hl, hl, Nat.add_sub_cancel]
      rw [if_pos (by omega), if_neg (by omega), if_neg (by omega)]
    · rw [if_neg hin, if_neg (by omega), if_neg (by omega), if_neg (by omega)]
  | case2 s beg last hge =>
    split
    · congr 1
      omega
    · rfl

/-- `strrev` reverses the string and leaves the rest. -/
theorem strrev_eq (h : HoldsString s text) (hlen : text.length < 4294967296) :
    ∃ s', strrev s = some s' ∧ HoldsString s' text.reverse ∧
      ∀ i, text.length ≤ i → s' i = s i := by
  have hout : ∀ i, text.length ≤ i → strrevGo s 0 (text.length - 1) i = s i := by
    intro i hi
    rw [strrevGo_apply]
    split
    · -- the empty string, whose only index is mirrored to itself
      congr 1
      omega
    · rfl
  refine ⟨strrevGo s 0 (text.length - 1), by rw [strrev, strlen_eq h hlen]; rfl,
    ⟨fun i hi => ?_, ?_, by simpa using h.nonzero⟩, hout⟩
  · rw [List.length_reverse] at hi
    rw [strrevGo_apply, if_pos (by omega), h.chars _ (by omega), List.getElem_reverse]
    congr 1
    omega
  · rw [List.length_reverse, hout _ (Nat.le_refl _)]
    exact h.ends

end Strings

/-! ## `itoa` -/

section Itoa

variable {radix : UInt32}

theorem lookup_eq {d : Nat} (h : d < 36) : lookup.getD d 0 = digitChar d := by
  interval_cases d <;> rfl

/-- The loop stores the digits, the lowest one first. -/
theorem itoaLoop_eq (h2 : 2 ≤ radix.toNat) (hr : radix.toNat ≤ 36) (fuel : Nat) (newval : UInt32)
    (newbuf : Nat) (buf : Nat → UInt8)
    (hfuel : (Nat.digits radix.toNat newval.toNat).length < fuel) :
    itoaLoop radix fuel newval newbuf buf =
      some (newbuf + (Nat.digits radix.toNat newval.toNat).length,
        overwrite buf newbuf ((Nat.digits radix.toNat newval.toNat).map digitChar)) := by
  induction fuel generalizing newval newbuf buf with
  | zero => omega
  | succ fuel ih =>
    rw [itoaLoop]
    by_cases hz : newval.toNat = 0
    · rw [if_neg (by simpa [UInt32.lt_iff_toNat_lt] using hz), hz]
      simp
    · rw [if_pos (by rw [gt_iff_lt, UInt32.lt_iff_toNat_lt]; exact Nat.pos_of_ne_zero hz)]
      have hdigits := Nat.digits_def' (b := radix.toNat) (by omega) (Nat.pos_of_ne_zero hz)
      rw [hdigits] at hfuel ⊢
      have hdiv : (newval / radix).toNat = newval.toNat / radix.toNat := UInt32.toNat_div _ _
      have hmod : newval.toNat % radix.toNat < 36 :=
        Nat.lt_of_lt_of_le (Nat.mod_lt _ (by omega)) hr
      dsimp only
      rw [ih _ _ _ (by rw [hdiv]; simpa using hfuel), hdiv, UInt32.toNat_mod, lookup_eq hmod,
        List.map_cons, overwrite_cons, List.length_cons]
      congr 2
      omega

/-- A 32-bit number has at most 32 digits. -/
theorem length_numeral_word (h2 : 2 ≤ radix.toNat) (value : UInt32) :
    (numeral radix.toNat value.toNat).length ≤ 32 :=
  length_numeral_le h2 (by decide) <|
    Nat.lt_of_lt_of_le value.toNat_lt (Nat.pow_le_pow_left h2 32)

/-- **`itoa` leaves the numeral in its buffer**, and does not change what is behind its NUL. -/
theorem itoaBuf_eq (h2 : 2 ≤ radix.toNat) (hr : radix.toNat ≤ 36) (value : UInt32)
    (buf : Nat → UInt8) :
    ∃ buf', itoaBuf value buf radix = some buf' ∧
      HoldsString buf' (numeral radix.toNat value.toNat) ∧
      ∀ i, (numeral radix.toNat value.toNat).length < i → buf' i = buf i := by
  by_cases hv : value = 0
  · subst hv
    have hstored := holdsString_overwrite buf (zero_notMem_numeral h2 hr 0)
    rw [show numeral radix.toNat 0 = [ch '0'] from rfl, overwrite_singleton] at hstored
    refine ⟨_, rfl, hstored, fun i hi => ?_⟩
    have hi : 1 < i := hi
    rw [Function.update_of_ne (by omega), Function.update_of_ne (by omega)]
  · have hnum : value.toNat ≠ 0 := fun h => hv (UInt32.toNat_inj.mp h)
    have hne : radix ≠ 0 := fun h => by rw [h] at h2; exact absurd h2 (by decide)
    have hlen := length_numeral_word h2 value
    have hzero := zero_notMem_numeral h2 hr value.toNat
    rw [numeral_of_ne hnum] at hlen hzero ⊢
    generalize hd : Nat.digits radix.toNat value.toNat = digits at hlen hzero ⊢
    simp only [List.length_reverse, List.length_map] at hlen ⊢
    have hloop := itoaLoop_eq h2 hr 33 value 0 buf (by rw [hd]; omega)
    rw [List.mem_reverse] at hzero
    have hstored := holdsString_overwrite buf hzero
    obtain ⟨buf', hrev, hholds, hrest⟩ := strrev_eq hstored (by simp; omega)
    rw [List.length_map] at hrev hrest
    refine ⟨buf', ?_, hholds, fun i hi => ?_⟩
    · rw [itoaBuf, if_neg hv, if_neg hne, hloop, hd, Nat.zero_add]
      exact hrev
    · rw [hrest i (by omega), Function.update_of_ne (by omega)]
      exact overwrite_of_le (by simp; omega)

/-- **`itoa` renders numbers.** -/
theorem itoa_renders (value radix : UInt32) (h2 : 2 ≤ radix) (hr : radix ≤ 36) (buf : Nat → UInt8) :
    ∃ buf' text, itoaBuf value buf radix = some buf' ∧ HoldsString buf' text ∧
      IsNumeral radix.toNat value.toNat text ∧ text.length + 1 ≤ 33 ∧
      ∀ i, text.length < i → buf' i = buf i := by
  have h2 : 2 ≤ radix.toNat := UInt32.le_iff_toNat_le.mp h2
  have hr : radix.toNat ≤ 36 := UInt32.le_iff_toNat_le.mp hr
  obtain ⟨buf', heq, hholds, hrest⟩ := itoaBuf_eq h2 hr value buf
  have hlen := length_numeral_word h2 value
  exact ⟨buf', _, heq, hholds, isNumeral_numeral h2 hr _, by omega, hrest⟩

/-- The largest number in binary, which is the longest. -/
theorem itoa_renders_longest :
    ∃ buf' text, itoaBuf 4294967295 (fun _ => 7) 2 = some buf' ∧ HoldsString buf' text ∧
      IsNumeral 2 4294967295 text ∧ text.length + 1 ≤ 33 ∧ ∀ i, text.length < i → buf' i = 7 :=
  itoa_renders 4294967295 2 (by decide) (by decide) fun _ => 7

/-! ## The string of `printf` -/

theorem itoaDigits_eq {radix newval fuel : Nat} (h2 : 2 ≤ radix) (hf : newval ≤ fuel) :
    itoaDigits radix fuel newval = (Nat.digits radix newval).map digitChar := by
  induction fuel generalizing newval with
  | zero =>
    obtain rfl : newval = 0 := by omega
    simp [itoaDigits]
  | succ fuel ih =>
    rw [itoaDigits]
    split
    · rename_i hz
      simp [hz]
    · rename_i hz
      have hlt := Nat.div_lt_self (Nat.pos_of_ne_zero hz) h2
      rw [Nat.digits_def' h2 (Nat.pos_of_ne_zero hz), List.map_cons]
      dsimp only
      rw [ih (by omega)]
      rfl

/-- The string that `printf` gets from `itoa` is the numeral. -/
theorem itoa_eq_numeral {value radix : Nat} (h2 : 2 ≤ radix) :
    itoa value radix = numeral radix value := by
  unfold itoa numeral
  split
  · rfl
  · rw [itoaDigits_eq h2 (Nat.le_refl _)]

end Itoa

end Mp3
