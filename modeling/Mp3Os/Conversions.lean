import Mp3Os.Format

/-!
# The buffer of a conversion

`printf` writes a number into `conv_buf` and prints it with `puts`. `%#x` lets `itoa` write behind
the first eight bytes, fills these with zeros from the length of the number on, and prints from
there, so that eight digits are left. `%d` stores the sign and writes the number behind it.

Each of the three prints what its piece is (`hexConv_eq`, `unsignedConv_eq`, `signedConv_eq`),
whatever the buffer held.
-/

namespace Mp3

/-- The loop of `puts`: the characters it prints from `index` on. -/
def putsGo (s : Nat → UInt8) : Nat → Nat → Option (List UInt8)
  | 0, _ => none
  | fuel + 1, index =>
    if s index = 0 then some [] else (putsGo s fuel (index + 1)).map (s index :: ·)

/-- `puts`. -/
def puts (s : Nat → UInt8) : Option (List UInt8) := putsGo s 4294967296 0

/-- `itoa(value, &conv_buf[off], radix)`. -/
def itoaAt (off : Nat) (value : UInt32) (convBuf : Nat → UInt8) (radix : UInt32) :
    Option (Nat → UInt8) :=
  (itoaBuf value (fun i => convBuf (off + i)) radix).map fun number i =>
    if i < off then convBuf i else number (i - off)

/-- `while (i < 8) conv_buf[i++] = '0'`. -/
def padZeros (convBuf : Nat → UInt8) (i : Nat) : Nat → UInt8 :=
  if i < 8 then padZeros (Function.update convBuf i (ch '0')) (i + 1) else convBuf
termination_by 8 - i

/-- `%x` and `%#x`. -/
def hexConv (alternate : Bool) (value : UInt32) (convBuf : Nat → UInt8) : Option (List UInt8) :=
  if alternate then
    (itoaAt 8 value convBuf 16).bind fun convBuf =>
      (strlen fun i => convBuf (8 + i)).bind fun startingIndex =>
        puts fun i => padZeros convBuf startingIndex (startingIndex + i)
  else (itoaAt 0 value convBuf 16).bind puts

/-- `%u`. -/
def unsignedConv (value : UInt32) (convBuf : Nat → UInt8) : Option (List UInt8) :=
  (itoaAt 0 value convBuf 10).bind puts

/-- `%d`. -/
def signedConv (value : UInt32) (convBuf : Nat → UInt8) : Option (List UInt8) :=
  if value.toInt32 < 0 then
    (itoaAt 1 (-value) (Function.update convBuf 0 (ch '-')) 10).bind puts
  else (itoaAt 0 value convBuf 10).bind puts

section Puts

variable {s : Nat → UInt8} {text : List UInt8} {value radix : UInt32} {off : Nat}

theorem putsGo_eq {fuel index : Nat} (h : HoldsString (fun i => s (index + i)) text)
    (hfuel : text.length < fuel) : putsGo s fuel index = some text := by
  induction text generalizing fuel index with
  | nil =>
    obtain ⟨fuel, rfl⟩ : ∃ f, fuel = f + 1 := ⟨fuel - 1, by omega⟩
    have h0 : s index = 0 := h.ends
    rw [putsGo, if_pos h0]
  | cons c text ih =>
    obtain ⟨fuel, rfl⟩ : ∃ f, fuel = f + 1 := ⟨fuel - 1, by omega⟩
    obtain ⟨hc, h0, h⟩ := h.cons
    rw [putsGo, hc, if_neg h0, ih h (Nat.lt_of_succ_lt_succ hfuel)]
    rfl

/-- `puts` prints the string. -/
theorem puts_eq (h : HoldsString s text) (hlen : text.length < 4294967296) :
    puts s = some text := by
  refine putsGo_eq ?_ hlen
  simp only [Nat.zero_add]
  exact h

/-- `itoa` into the middle of a buffer. -/
theorem itoaAt_eq (h2 : 2 ≤ radix.toNat) (hr : radix.toNat ≤ 36) (off : Nat) (value : UInt32)
    (convBuf : Nat → UInt8) :
    ∃ buf, itoaAt off value convBuf radix = some buf ∧
      HoldsString (fun i => buf (off + i)) (numeral radix.toNat value.toNat) ∧
      ∀ i < off, buf i = convBuf i := by
  obtain ⟨number, heq, hholds, -⟩ := itoaBuf_eq h2 hr value fun i => convBuf (off + i)
  refine ⟨_, by rw [itoaAt, heq]; rfl, ?_, fun i hi => if_pos hi⟩
  have hback : (fun i => if off + i < off then convBuf (off + i) else number (off + i - off)) =
      number := by
    funext i
    rw [if_neg (by omega), Nat.add_sub_cancel_left]
  rw [hback]
  exact hholds

/-- A number at the start of the buffer. -/
theorem itoaAt_puts (h2 : 2 ≤ radix.toNat) (hr : radix.toNat ≤ 36) (value : UInt32)
    (convBuf : Nat → UInt8) :
    (itoaAt 0 value convBuf radix).bind puts = some (numeral radix.toNat value.toNat) := by
  obtain ⟨buf, heq, hholds, -⟩ := itoaAt_eq h2 hr 0 value convBuf
  have hlen := length_numeral_word h2 value
  simp only [Nat.zero_add] at hholds
  rw [heq]
  exact puts_eq hholds (by omega)

theorem padZeros_apply (s : Nat → UInt8) (i j : Nat) :
    padZeros s i j = if i ≤ j ∧ j < 8 then ch '0' else s j := by
  fun_induction padZeros s i with
  | case1 s i hlt ih =>
    rw [ih, Function.update_apply]
    grind
  | case2 s i hge =>
    rw [if_neg (by omega)]

end Puts

section Conversions

variable (st : Stack) (value : UInt32) (convBuf : Nat → UInt8)

theorem unsignedConv_eq : unsignedConv value convBuf = Piece.unsigned.text st value :=
  itoaAt_puts (by decide) (by decide) value convBuf

theorem hexConv_eq (alternate : Bool) :
    hexConv alternate value convBuf = (Piece.hex alternate).text st value := by
  cases alternate with
  | false => exact itoaAt_puts (by decide) (by decide) value convBuf
  | true =>
    have h2 : 2 ≤ (16 : UInt32).toNat := by decide
    obtain ⟨buf, heq, hholds, -⟩ := itoaAt_eq h2 (by decide) 8 value convBuf
    have hword := length_numeral_word h2 value
    have hlen : (numeral (16 : UInt32).toNat value.toNat).length ≤ 8 :=
      length_numeral_le h2 (by decide) value.toNat_lt
    have hpadded : List.replicate (8 - (numeral (16 : UInt32).toNat value.toNat).length) (ch '0') ++
        numeral (16 : UInt32).toNat value.toNat = fixedNumeral 16 8 value.toNat :=
      padded_numeral (by decide) (by decide) value.toNat_lt
    generalize numeral (16 : UInt32).toNat value.toNat = digits at hholds hlen hpadded hword
    have hstart : (strlen fun i => buf (8 + i)) = some digits.length := strlen_eq hholds (by omega)
    -- the zeros stand before the number, which is where it was
    have hall : HoldsString (fun i => padZeros buf digits.length (digits.length + i))
        (List.replicate (8 - digits.length) (ch '0') ++ digits) := by
      refine ⟨fun i hi => ?_, ?_, ?_⟩
      · rw [List.length_append, List.length_replicate] at hi
        rw [padZeros_apply]
        by_cases hz : i < 8 - digits.length
        · rw [if_pos (by omega), List.getElem_append_left (by simpa using hz),
            List.getElem_replicate]
        · rw [if_neg (by omega), List.getElem_append_right (by simpa using hz),
            ← hholds.chars _ (by simp; omega)]
          congr 1
          simp
          omega
      · rw [List.length_append, List.length_replicate, Nat.sub_add_cancel hlen, padZeros_apply,
          if_neg (by omega), Nat.add_comm]
        exact hholds.ends
      · rw [List.mem_append, not_or]
        refine ⟨fun h => ?_, hholds.nonzero⟩
        exact absurd (List.eq_of_mem_replicate h) (by decide)
    show (itoaAt 8 value convBuf 16).bind _ = some (fixedNumeral 16 8 value.toNat)
    rw [heq, ← hpadded, Option.bind_some, hstart]
    exact puts_eq hall (by simp; omega)

theorem signedConv_eq : signedConv value convBuf = Piece.signed.text st value := by
  have hlt := value.toNat_lt
  have h2 : 2 ≤ (10 : UInt32).toNat := by decide
  have hneg : value.toInt32 < 0 ↔ value.toInt32.toInt < 0 := Int32.lt_iff_toInt_lt
  show (if value.toInt32 < 0 then _ else _) = some (intNumeral 10 value.toInt32.toInt)
  rw [← i32_word] at hneg ⊢
  unfold intNumeral
  split
  · rename_i h
    have hlow := hneg.mp h
    rw [if_pos hlow]
    obtain ⟨buf, heq, hholds, hsign⟩ := itoaAt_eq h2 (by decide) 1 (-value)
      (Function.update convBuf 0 (ch '-'))
    have hword := length_numeral_word h2 (-value)
    have habs : (-value).toNat = (i32 value.toNat).natAbs := by
      have hnegate := UInt32.toNat_neg value
      simp only [UInt32.size] at hnegate
      unfold i32 at *
      omega
    rw [habs] at hholds hword
    have hfirst : buf 0 = ch '-' := by
      rw [hsign 0 (by decide), Function.update_self]
    rw [heq]
    show putsGo buf (4294967295 + 1) 0 = some (ch '-' :: numeral 10 (i32 value.toNat).natAbs)
    rw [putsGo, hfirst, if_neg (by decide), putsGo_eq hholds (by omega)]
    rfl
  · rename_i h
    have hhigh := mt hneg.mpr h
    rw [if_neg hhigh]
    have habs : value.toNat = (i32 value.toNat).natAbs := by
      unfold i32 at *
      omega
    rw [← habs]
    exact itoaAt_puts h2 (by decide) value convBuf

end Conversions

end Mp3
