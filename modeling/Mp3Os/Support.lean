import Mp3Os.Lookup
import Mp3Os.UserCalls

/-!
# The support library of the programs (`ece391support.c`)

Strings are memory from a pointer on. `IsName` says which bytes stand before the NUL of a string;
they are unique (`IsName.unique`). The functions of the library do to the memory what they are for
with these bytes: `ece391Strcmp_eq_zero`, `ece391Strncmp_eq_zero`, `ece391Strlen_eq`, `ece391Strcpy_eq`.
-/

namespace Mp3

/-- `ece391_strcmp(s1, s2)`, where `s2` is a string literal. -/
def ece391Strcmp : (Nat → UInt8) → List UInt8 → Int
  | s1, [] => (s1 0).toNat
  | s1, b :: s2 =>
    if s1 0 = b then if s1 0 = 0 then 0 else ece391Strcmp (fun i => s1 (i + 1)) s2
    else (s1 0).toNat - b.toNat

/-- `ece391_strlen`, of a string in an array of `fuel` bytes. -/
def ece391Strlen : Nat → (Nat → UInt8) → Nat
  | 0, _ => 0
  | fuel + 1, s => if s 0 = 0 then 0 else ece391Strlen fuel (fun i => s (i + 1)) + 1

/-- `ece391_strncmp(s1, s2, n)`. -/
def ece391Strncmp : (Nat → UInt8) → (Nat → UInt8) → Nat → Int
  | _, _, 0 => 0
  | s1, s2, n + 1 =>
    if s1 0 = s2 0 then
      if s1 0 = 0 ∨ n = 0 then 0 else ece391Strncmp (fun i => s1 (i + 1)) (fun i => s2 (i + 1)) n
    else (s1 0).toNat - (s2 0).toNat

/-- `ece391_strcpy(m + dst, m + src)`, where the source is in an array of `fuel` bytes. -/
def ece391Strcpy : Nat → (Nat → UInt8) → Nat → Nat → Nat → UInt8
  | 0, m, _, _ => m
  | fuel + 1, m, dst, src =>
    let m' := Function.update m dst (m src)
    if m src = 0 then m' else ece391Strcpy fuel m' (dst + 1) (src + 1)

/-- `ece391_fdputs(1, s)` of a string literal. -/
def fdputs (text : List UInt8) : UserCall := .write 1 (cstr text) text.length

/-- `ece391_fdputs(1, s)` of a string in an array of at most 1025 bytes. -/
def fdputsFrom (s : Nat → UInt8) : UserCall := .write 1 s (ece391Strlen 1025 s)

/-- What a message writes is its text. -/
@[simp] theorem output_fdputs (text : List UInt8) : (fdputs text).output = text := by
  have h : (fdputs text).output = (List.range text.length).map (cstr text) := rfl
  rw [h]
  apply List.ext_getElem
  · simp
  · intro i _ hi
    simp [cstr, hi]

section Strings

variable {fname : Nat → UInt8} {a b : List UInt8}

/-- A string in memory has one list of bytes. -/
theorem IsName.unique (ha : IsName fname a) (hb : IsName fname b) : a = b := by
  have hlt : ∀ {a b : List UInt8}, IsName fname a → IsName fname b → ¬ a.length < b.length := by
    intro a b ha hb hl
    have h := hb.bytes a.length hl.le
    rw [ha.bytes _ (Nat.le_refl _), List.getD_eq_default _ _ (Nat.le_refl _),
      List.getD_eq_getElem _ _ hl] at h
    exact hb.noNul (h ▸ List.getElem_mem hl)
  have hlen : a.length = b.length := by
    have h1 := hlt ha hb
    have h2 := hlt hb ha
    omega
  refine List.ext_getElem hlen fun i hi hi' => ?_
  have h := ha.bytes i hi.le
  rwa [hb.bytes i hi'.le, List.getD_eq_getElem _ _ hi, List.getD_eq_getElem _ _ hi', eq_comm] at h

/-- **`ece391_strcmp` returns 0 exactly for the string itself.** -/
theorem ece391Strcmp_eq_zero (hb : 0 ∉ b) : ece391Strcmp fname b = 0 ↔ IsName fname b := by
  induction b generalizing fname with
  | nil =>
    constructor
    · intro h
      refine ⟨hb, fun i hi => ?_⟩
      obtain rfl : i = 0 := Nat.le_zero.mp hi
      rw [ece391Strcmp] at h
      exact UInt8.toNat_inj.mp (by simpa using h)
    · intro h
      have h0 : fname 0 = 0 := h.bytes 0 (Nat.le_refl _)
      rw [ece391Strcmp, h0]
      rfl
  | cons c b ih =>
    obtain ⟨hc, hb⟩ : 0 ≠ c ∧ 0 ∉ b := by simpa using hb
    rw [ece391Strcmp]
    by_cases h : fname 0 = c
    · rw [if_pos h, if_neg (fun h0 => hc (h0.symm.trans h)), ih hb]
      constructor
      · intro hn
        refine ⟨by simp [hc, hb], fun i hi => ?_⟩
        cases i with
        | zero => exact h
        | succ i => exact hn.bytes i (Nat.le_of_succ_le_succ hi)
      · intro hn
        exact ⟨hb, fun i hi => hn.bytes (i + 1) (Nat.succ_le_succ hi)⟩
    · rw [if_neg h]
      refine iff_of_false (fun h0 => h ?_) fun hn => h (hn.bytes 0 (Nat.zero_le _))
      exact UInt8.toNat_inj.mp (by omega)

/-- A string that begins some bytes, of which a NUL ends the rest. -/
theorem isName_cString (h : ∀ i ≤ a.length, fname i = a.getD i 0) : IsName fname (cString a) := by
  refine ⟨zero_notMem_cString a, fun i hi => ?_⟩
  have hle : (cString a).length ≤ a.length := (List.takeWhile_sublist _).length_le
  rw [h i (hi.trans hle)]
  exact (cString_eq_iff (zero_notMem_cString a)).mp rfl i hi

/-- **`ece391_strlen`.** -/
theorem ece391Strlen_eq {fuel : Nat} (h : IsName fname a) (hf : a.length < fuel) :
    ece391Strlen fuel fname = a.length := by
  induction a generalizing fname fuel with
  | nil =>
    obtain ⟨fuel, rfl⟩ : ∃ k, fuel = k + 1 := ⟨fuel - 1, by simp at hf; omega⟩
    have h0 : fname 0 = 0 := h.bytes 0 (Nat.le_refl _)
    rw [ece391Strlen, if_pos h0]
    rfl
  | cons c a ih =>
    obtain ⟨fuel, rfl⟩ : ∃ k, fuel = k + 1 := ⟨fuel - 1, by simp at hf; omega⟩
    obtain ⟨hc, ha⟩ : 0 ≠ c ∧ 0 ∉ a := by simpa using h.noNul
    have h0 : fname 0 = c := h.bytes 0 (Nat.zero_le _)
    have htail : IsName (fun i => fname (i + 1)) a :=
      ⟨ha, fun i hi => h.bytes (i + 1) (Nat.succ_le_succ hi)⟩
    rw [ece391Strlen, h0, if_neg hc.symm, ih htail (by simpa using hf)]
    rfl

theorem output_fdputsFrom (h : IsName fname a) (hlen : a.length < 1025) :
    (fdputsFrom fname).output = a := by
  have ho : (fdputsFrom fname).output = (List.range (ece391Strlen 1025 fname)).map fname := rfl
  rw [ho, ece391Strlen_eq h hlen]
  apply List.ext_getElem
  · simp
  · intro i hi hi'
    simp only [List.getElem_map, List.getElem_range]
    rw [h.bytes i hi'.le, List.getD_eq_getElem _ _ hi']

/-- **`ece391_strncmp` with the length of the second string** returns 0 exactly if the first one
begins with it. -/
theorem ece391Strncmp_eq_zero {s1 : Nat → UInt8} (h : IsName fname a) :
    ece391Strncmp s1 fname a.length = 0 ↔ ∀ i < a.length, s1 i = a.getD i 0 := by
  induction a generalizing s1 fname with
  | nil => exact iff_of_true rfl fun i hi => absurd hi (Nat.not_lt_zero i)
  | cons c a ih =>
    obtain ⟨hc, ha⟩ : 0 ≠ c ∧ 0 ∉ a := by simpa using h.noNul
    have h0 : fname 0 = c := h.bytes 0 (Nat.zero_le _)
    have htail : IsName (fun i => fname (i + 1)) a :=
      ⟨ha, fun i hi => h.bytes (i + 1) (Nat.succ_le_succ hi)⟩
    have hsplit : (∀ i < (c :: a).length, s1 i = (c :: a).getD i 0) ↔
        s1 0 = c ∧ ∀ i < a.length, s1 (i + 1) = a.getD i 0 := by
      constructor
      · exact fun hs => ⟨hs 0 (Nat.succ_pos _), fun i hi => hs (i + 1) (Nat.succ_lt_succ hi)⟩
      · rintro ⟨hz, hs⟩ i hi
        cases i with
        | zero => exact hz
        | succ i => exact hs i (Nat.lt_of_succ_lt_succ hi)
    rw [hsplit, List.length_cons, ece391Strncmp, h0]
    by_cases he : s1 0 = c
    · have hne : ¬ s1 0 = 0 := fun hz => hc (hz.symm.trans he)
      rw [if_pos he, and_iff_right he]
      by_cases hl : a.length = 0
      · rw [if_pos (.inr hl), hl]
        exact iff_of_true rfl fun i hi => absurd hi (Nat.not_lt_zero i)
      · rw [if_neg (not_or.mpr ⟨hne, hl⟩)]
        exact ih htail
    · rw [if_neg he]
      refine iff_of_false (fun hz => he (UInt8.toNat_inj.mp (by omega))) fun hz => he hz.1

/-- **`ece391_strcpy` to a place before the string** moves it there. -/
theorem ece391Strcpy_eq {m : Nat → UInt8} {dst src n fuel : Nat} (hds : dst < src)
    (hne : ∀ i < n, m (src + i) ≠ 0) (h0 : m (src + n) = 0) (hf : n < fuel) :
    ece391Strcpy fuel m dst src = fun i =>
      if dst ≤ i ∧ i ≤ dst + n then m (src + (i - dst)) else m i := by
  induction n generalizing m dst src fuel with
  | zero =>
    obtain ⟨fuel, rfl⟩ : ∃ k, fuel = k + 1 := ⟨fuel - 1, by omega⟩
    have hz : m src = 0 := h0
    simp only [ece391Strcpy, hz, ↓reduceIte]
    funext i
    rw [Function.update_apply]
    by_cases hi : i = dst
    · rw [if_pos hi, if_pos (by omega), hi, Nat.sub_self]
      exact hz.symm
    · rw [if_neg hi, if_neg (by omega)]
  | succ n ih =>
    obtain ⟨fuel, rfl⟩ : ∃ k, fuel = k + 1 := ⟨fuel - 1, by omega⟩
    have hz : ¬ m src = 0 := hne 0 (Nat.succ_pos n)
    -- the byte that is stored is none of those still to copy
    have hkeep : ∀ i, Function.update m dst (m src) (src + 1 + i) = m (src + (i + 1)) := by
      intro i
      rw [Function.update_of_ne (by omega), Nat.add_assoc, Nat.add_comm 1 i]
    simp only [ece391Strcpy, hz, ↓reduceIte]
    rw [ih (by omega) (fun i hi => by rw [hkeep]; exact hne (i + 1) (by omega))
      (by rw [hkeep]; exact h0) (by omega)]
    funext i
    by_cases hi : dst + 1 ≤ i ∧ i ≤ dst + 1 + n
    · rw [if_pos hi, if_pos (by omega), hkeep]
      congr 2
      omega
    · rw [if_neg hi, Function.update_apply]
      by_cases hd : i = dst
      · rw [if_pos hd, if_pos (by omega), hd, Nat.sub_self]
        rfl
      · rw [if_neg hd, if_neg (by omega)]

end Strings

/-! ## Segments of an array -/

/-- The bytes from `a` to before `b`. -/
def seg (m : Nat → UInt8) (a b : Nat) : List UInt8 := (List.range (b - a)).map fun i => m (a + i)

section Segments

variable {m m' : Nat → UInt8} {a b c i : Nat}

@[simp] theorem length_seg : (seg m a b).length = b - a := by simp [seg]

theorem getElem_seg (h : i < (seg m a b).length) : (seg m a b)[i] = m (a + i) := by simp [seg]

theorem mem_seg {v : UInt8} : v ∈ seg m a b ↔ ∃ i, a ≤ i ∧ i < b ∧ m i = v := by
  simp only [seg, List.mem_map, List.mem_range]
  constructor
  · rintro ⟨i, hi, rfl⟩
    exact ⟨a + i, by omega, by omega, rfl⟩
  · rintro ⟨i, ha, hb, rfl⟩
    exact ⟨i - a, by omega, by rw [Nat.add_sub_cancel' ha]⟩

theorem seg_nil (h : b ≤ a) : seg m a b = [] := by
  rw [seg, Nat.sub_eq_zero_of_le h]
  rfl

theorem seg_append (hab : a ≤ b) (hbc : b ≤ c) : seg m a b ++ seg m b c = seg m a c := by
  rw [seg, seg, seg, show c - a = (b - a) + (c - b) by omega, List.range_add, List.map_append,
    List.map_map]
  congr 2
  funext i
  rw [Function.comp_apply, ← Nat.add_assoc, Nat.add_sub_cancel' hab]

theorem seg_cons (h : a < b) : seg m a b = m a :: seg m (a + 1) b := by
  rw [← seg_append (Nat.le_succ a) h, seg, Nat.succ_eq_add_one, Nat.add_sub_cancel_left]
  rfl

theorem seg_congr (h : ∀ i, a ≤ i → i < b → m i = m' i) : seg m a b = seg m' a b := by
  refine List.map_congr_left fun i hi => h (a + i) (by omega) ?_
  have := List.mem_range.mp hi
  omega

end Segments

end Mp3
