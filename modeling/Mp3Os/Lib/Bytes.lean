import Mathlib.Algebra.Group.Nat.Defs
import Mathlib.Data.List.OfFn
import Mathlib.Data.List.TakeWhile

/-!
# Byte arrays of a fixed size and 32-bit words

`Buf n` is a C array of `n` bytes. `u32`/`i32` are the conversions of the C integer types: the
residue modulo `2 ^ 32`, and the signed reading of it. `le32` reads a little-endian word, and
`cString` the bytes before the first NUL.
-/

/-- An array of `n` bytes. -/
abbrev Buf (n : Nat) := Fin n → UInt8

namespace Buf

variable {n : Nat}

/-- `memset(b, 0, n)`. -/
def zero : Buf n := fun _ => 0

/-- The byte at index `i`; `0` past the end. -/
def getD (b : Buf n) (i : Nat) : UInt8 := if h : i < n then b ⟨i, h⟩ else 0

/-- `b[i] = v`. A store outside the array changes no byte of it. -/
def set (b : Buf n) (i : Int) (v : UInt8) : Buf n := fun j => if (j : Int) = i then v else b j

/-- `memmove(b, b + k, n - k)`: the bytes from `k` on move to the front, the last `k` stay. -/
def shiftDown (b : Buf n) (k : Nat) : Buf n := fun j =>
  if h : j.1 + k < n then b ⟨j.1 + k, h⟩ else b j

/-- `memcpy(dst, src, k)` of the first `k` bytes. -/
def copyPrefix (dst src : Buf n) (k : Int) : Buf n := fun j => if (j : Int) < k then src j else dst j

/-- The bytes in order. -/
def toList (b : Buf n) : List UInt8 := List.ofFn b

@[simp] theorem length_toList (b : Buf n) : b.toList.length = n := by simp [toList]

theorem getElem_toList (b : Buf n) {i : Nat} (h : i < b.toList.length) :
    b.toList[i] = b ⟨i, by simpa using h⟩ := by simp [toList]

theorem getElem?_toList (b : Buf n) (i : Nat) :
    b.toList[i]? = if h : i < n then some (b ⟨i, h⟩) else none := by
  by_cases h : i < n <;> simp [toList, h]

@[simp] theorem set_self (b : Buf n) {i : Nat} (v : UInt8) (h : i < n) : b.set i v ⟨i, h⟩ = v := by
  simp [set]

theorem set_ne (b : Buf n) {i : Int} (v : UInt8) {j : Fin n} (h : (j : Int) ≠ i) :
    b.set i v j = b j := by
  simp [set, h]

theorem toList_set (b : Buf n) {i : Nat} (v : UInt8) (h : i < n) :
    (b.set i v).toList = b.toList.take i ++ v :: b.toList.drop (i + 1) := by
  have hset := List.set_eq_take_append_cons_drop (l := b.toList) (i := i) (a := v)
  rw [if_pos (by simpa using h)] at hset
  rw [← hset]
  apply List.ext_getElem
  · simp
  · intro j hj hj'
    rw [getElem_toList, List.getElem_set]
    split
    · rename_i hij
      subst hij
      exact set_self b v h
    · rename_i hij
      rw [getElem_toList, set_ne _ _ (by simp only; omega)]

theorem shiftDown_of_lt (b : Buf n) {k : Nat} {j : Fin n} (h : j.1 + k < n) :
    b.shiftDown k j = b ⟨j.1 + k, h⟩ := by
  simp [shiftDown, h]

theorem toList_shiftDown (b : Buf n) {k : Nat} (h : k ≤ n) :
    (b.shiftDown k).toList = b.toList.drop k ++ b.toList.drop (n - k) := by
  apply List.ext_getElem
  · simp
  · intro i hi hi'
    simp only [length_toList] at hi
    rw [getElem_toList]
    by_cases hk : i + k < n
    · rw [List.getElem_append_left (by simp; omega), List.getElem_drop, getElem_toList,
        shiftDown_of_lt b hk]
      congr 1
      exact Fin.ext (Nat.add_comm i k)
    · rw [List.getElem_append_right (by simp; omega), List.getElem_drop, getElem_toList]
      simp only [shiftDown, hk, ↓reduceDIte, List.length_drop, length_toList]
      congr 1
      exact Fin.ext (by simp; omega)

/-- The bytes of a list, then zeros. -/
def ofList (l : List UInt8) : Buf n := fun i => l.getD i 0

@[simp] theorem ofList_nil : (ofList [] : Buf n) = zero := by
  funext i; simp [ofList, zero]

/-- The byte at the start of what is left from `i` on. -/
theorem getD_of_drop {b : Buf n} {i : Nat} {v : UInt8} {l : List UInt8}
    (h : b.toList.drop i = v :: l) : b.getD i = v := by
  have hlt : i < n := by
    by_contra hge
    rw [List.drop_eq_nil_of_le (by simpa using hge)] at h
    cases h
  have hv : b.toList[i]? = some v := by
    rw [← List.head?_drop, h]
    rfl
  rw [getElem?_toList, dif_pos hlt] at hv
  simpa [getD, hlt] using hv

end Buf

/-- The C string at the start of some bytes. -/
def cString (l : List UInt8) : List UInt8 := l.takeWhile (· ≠ 0)

theorem cString_cons (b : UInt8) (l : List UInt8) :
    cString (b :: l) = if b = 0 then [] else b :: cString l := by
  by_cases hb : b = 0 <;> simp [cString, hb]

theorem zero_notMem_cString (l : List UInt8) : 0 ∉ cString l := fun h => by
  simpa using List.mem_takeWhile_imp h

/-- The C string at the start of `l` is `a`: the bytes of `a` stand there, then a NUL. -/
theorem cString_eq_iff {l a : List UInt8} (ha : 0 ∉ a) :
    cString l = a ↔ ∀ i ≤ a.length, l.getD i 0 = a.getD i 0 := by
  induction a generalizing l with
  | nil =>
    cases l with
    | nil => simp [cString]
    | cons b l => simp [cString, List.takeWhile_cons]
  | cons c a ih =>
    obtain ⟨hc, ha⟩ : 0 ≠ c ∧ 0 ∉ a := by simpa using ha
    cases l with
    | nil =>
      refine iff_of_false (by simp [cString]) fun h => hc ?_
      simpa using h 0 (by simp)
    | cons b l =>
      have hcons : cString (b :: l) = c :: a ↔ b = c ∧ cString l = a := by
        rw [cString_cons]
        by_cases hb : b = 0
        · subst hb
          simp [hc]
        · simp [hb]
      rw [hcons, ih ha]
      constructor
      · rintro ⟨rfl, h⟩ i hi
        cases i with
        | zero => rfl
        | succ i => simpa using h i (by simpa using hi)
      · intro h
        exact ⟨by simpa using h 0 (by simp),
          fun i hi => by simpa using h (i + 1) (by simpa using hi)⟩

/-- The memory after a list of bytes is stored from `pos` on. -/
def overwrite (buf : Nat → UInt8) (pos : Nat) (l : List UInt8) : Nat → UInt8 := fun i =>
  if pos ≤ i then l[i - pos]?.getD (buf i) else buf i

section Overwrite

variable (buf : Nat → UInt8) (pos : Nat) (l l' : List UInt8)

@[simp] theorem overwrite_nil : overwrite buf pos [] = buf := by
  funext i
  simp [overwrite]

theorem overwrite_append :
    overwrite buf pos (l ++ l') = overwrite (overwrite buf pos l) (pos + l.length) l' := by
  funext i
  unfold overwrite
  by_cases h0 : pos ≤ i
  · by_cases h1 : pos + l.length ≤ i
    · rw [if_pos h0, if_pos h1, if_pos h0, List.getElem?_append_right (by omega),
        List.getElem?_eq_none (l := l) (by omega), Nat.sub_sub]
      rfl
    · rw [if_pos h0, if_neg h1, if_pos h0, List.getElem?_append_left (by omega)]
  · rw [if_neg h0, if_neg (by omega), if_neg h0]

/-- One byte is stored. -/
theorem overwrite_singleton (b : UInt8) : overwrite buf pos [b] = Function.update buf pos b := by
  funext i
  rw [Function.update_apply]
  unfold overwrite
  rcases Nat.lt_trichotomy i pos with h | h | h
  · rw [if_neg (by omega), if_neg (by omega)]
  · simp [h]
  · rw [if_pos (by omega), if_neg (by omega), List.getElem?_eq_none (by simp; omega)]
    rfl

theorem overwrite_cons (b : UInt8) :
    overwrite buf pos (b :: l) = overwrite (Function.update buf pos b) (pos + 1) l := by
  rw [← List.singleton_append, overwrite_append, overwrite_singleton]
  rfl

variable {buf pos l}

theorem overwrite_of_le {i : Nat} (h : pos + l.length ≤ i) : overwrite buf pos l i = buf i := by
  unfold overwrite
  rw [List.getElem?_eq_none (by omega)]
  split <;> rfl

theorem overwrite_of_lt {i : Nat} (h0 : pos ≤ i) (h : i - pos < l.length) :
    overwrite buf pos l i = l[i - pos] := by
  unfold overwrite
  rw [if_pos h0, List.getElem?_eq_getElem h]
  rfl

/-- `n` bytes are stored. -/
theorem overwrite_map_range (buf : Nat → UInt8) (pos n : Nat) (f : Nat → UInt8) :
    overwrite buf pos ((List.range n).map f) = fun i =>
      if pos ≤ i ∧ i < pos + n then f (i - pos) else buf i := by
  funext i
  by_cases h : pos ≤ i ∧ i < pos + n
  · rw [if_pos h, overwrite_of_lt h.1 (by simp; omega)]
    simp
  · rw [if_neg h]
    by_cases h0 : pos ≤ i
    · exact overwrite_of_le (by simp; omega)
    · exact if_neg h0

/-- Storing through a pointer to `pos`. -/
theorem overwrite_window (buf : Nat → UInt8) (pos : Nat) (l : List UInt8) :
    (fun i => if pos ≤ i then overwrite (fun j => buf (pos + j)) 0 l (i - pos) else buf i) =
      overwrite buf pos l := by
  funext i
  unfold overwrite
  split
  · rename_i h
    dsimp only
    rw [if_pos (Nat.zero_le _), Nat.sub_zero, Nat.add_sub_cancel' h]
  · rfl

end Overwrite

/-- Conversion to `uint32_t`. -/
def u32 (x : Int) : Nat := (x % 4294967296).toNat

/-- Conversion of a `uint32_t` value to `int32_t`. -/
def i32 (x : Nat) : Int :=
  if x % 4294967296 < 2147483648 then (x % 4294967296 : Nat) else (x % 4294967296 : Nat) - 4294967296

theorem u32_lt (x : Int) : u32 x < 4294967296 := by
  unfold u32; omega

/-- A value of the type is kept. -/
theorem u32_eq_toNat {x : Int} (h0 : 0 ≤ x) (h : x < 4294967296) : u32 x = x.toNat := by
  rw [u32, Int.emod_eq_of_lt h0 h]

theorem u32_natCast {n : Nat} (h : n < 4294967296) : u32 (n : Int) = n :=
  u32_eq_toNat (by omega) (by omega)

/-- A sum that fits. -/
theorem u32_add {a b : Nat} (h : a + b < 4294967296) : u32 ((a : Int) + (b : Int)) = a + b :=
  u32_natCast h

/-- A difference that is not negative. -/
theorem u32_sub {a b : Nat} (hb : b ≤ a) (ha : a < 4294967296) :
    u32 ((a : Int) - (b : Int)) = a - b := by
  rw [← Int.ofNat_sub hb]
  exact u32_natCast (by omega)

/-- A sum wraps around once. -/
theorem u32_add_u32 (x y : Int) : u32 ((u32 x : Int) + y) = u32 (x + y) := by
  have hx : (u32 x : Int) = x % 4294967296 := by unfold u32; omega
  rw [hx, u32, Int.emod_add_emod, u32]

/-- The little-endian 32-bit word at `a`. -/
def le32 (m : Nat → UInt8) (a : Nat) : Nat :=
  (m a).toNat + 256 * (m (a + 1)).toNat + 65536 * (m (a + 2)).toNat + 16777216 * (m (a + 3)).toNat

theorem le32_lt (m : Nat → UInt8) (a : Nat) : le32 m a < 4294967296 := by
  have h0 := (m a).toNat_lt
  have h1 := (m (a + 1)).toNat_lt
  have h2 := (m (a + 2)).toNat_lt
  have h3 := (m (a + 3)).toNat_lt
  unfold le32; omega

/-! ## Page addresses with flags -/

section Pages

variable {a f : Nat}

theorem aligned_or (ha : a % 4096 = 0) (hf : f < 4096) : a ||| f = a + f := by
  obtain ⟨k, rfl⟩ : 4096 ∣ a := Nat.dvd_of_mod_eq_zero ha
  exact (Nat.two_pow_add_eq_or_of_lt (i := 12) hf k).symm

/-- The flags of an entry do not change the page it names. -/
theorem aligned_or_page (ha : a % 4096 = 0) (hf : f < 4096) : (a ||| f) / 4096 * 4096 = a := by
  rw [aligned_or ha hf]
  omega

/-- The flag bits of an entry are the flags. -/
theorem aligned_or_testBit (ha : a % 4096 = 0) {i : Nat} (hi : i < 12) :
    (a ||| f).testBit i = f.testBit i := by
  have h : (a % 2 ^ 12).testBit i = a.testBit i := by
    rw [Nat.testBit_mod_two_pow]
    simp [hi]
  rw [Nat.testBit_or, ← h, show 2 ^ 12 = 4096 from rfl, ha]
  simp

end Pages
