import Mathlib.Logic.Function.Iterate

/-!
# Blocks of memory and the string instructions of the x86

Memory is a function on 32-bit addresses, which wrap around. `blockCopy` and `blockFill` are the two
block operations: what a routine that copies or fills a block of `n` bytes should do. A block may be
done in parts (`blockCopy_add`, `blockFill_add`), as long as no part overwrites what a later one
reads.

`movs w` and `stos w` move and store one unit of `w` bytes and step the pointers by the direction
flag, and `rep` repeats one of them `ecx` times. `rep_inv` is the rule for it: an invariant that a
round keeps holds at the end, where `ecx` is 0. The segments are flat, so `es` and `ds` do not
matter.
-/

/-- A counter that is not 0 is one more than after it is decremented. -/
theorem toNat_pred {x : UInt32} (h : x ≠ 0) : x.toNat = (x - 1).toNat + 1 := by
  have hpos : x.toNat ≠ 0 := fun h0 => h (UInt32.toNat_inj.mp h0)
  have h1 : (1 : UInt32) ≤ x := UInt32.le_iff_toNat_le.mpr (Nat.pos_of_ne_zero hpos)
  rw [UInt32.toNat_sub_of_le _ _ h1]
  exact (Nat.sub_add_cancel (Nat.pos_of_ne_zero hpos)).symm

theorem toNat_pred_lt {x : UInt32} (h : ¬ x = 0) : (x - 1).toNat < x.toNat := by
  rw [toNat_pred h]
  exact Nat.lt_succ_self _

theorem toNat_add_le {k w n : UInt32} (h : k.toNat + w.toNat ≤ n.toNat) :
    (k + w).toNat = k.toNat + w.toNat := by
  have := n.toNat_lt
  rw [UInt32.toNat_add, Nat.mod_eq_of_lt (by omega)]

theorem toNat_succ {k n : UInt32} (h : k.toNat + 1 ≤ n.toNat) : (k + 1).toNat = k.toNat + 1 :=
  toNat_add_le (w := 1) h

/-- The byte `a` is in the block of `n` bytes at `p`. -/
def InBlock (a p n : UInt32) : Prop := a - p < n

instance (a p n : UInt32) : Decidable (InBlock a p n) := inferInstanceAs (Decidable (_ < _))

/-- The memory after `n` bytes are copied from `src` to `dst` at once. -/
def blockCopy (m : UInt32 → UInt8) (dst src n : UInt32) : UInt32 → UInt8 := fun a =>
  if InBlock a dst n then m (src + (a - dst)) else m a

/-- The memory after the `n` bytes at `dst` are set to `v`. -/
def blockFill (m : UInt32 → UInt8) (dst n : UInt32) (v : UInt8) : UInt32 → UInt8 := fun a =>
  if InBlock a dst n then v else m a

section Blocks

variable {m : UInt32 → UInt8} {a dst src k l : UInt32}

@[simp] theorem blockCopy_zero : blockCopy m dst src 0 = m := by
  funext a
  exact if_neg (by simp [InBlock])

@[simp] theorem blockFill_zero {v : UInt8} : blockFill m dst 0 v = m := by
  funext a
  exact if_neg (by simp [InBlock])

/-- A block of `k + l` bytes is one of `k` and one of `l` behind it. -/
theorem inBlock_add (h : k ≤ k + l) :
    InBlock a dst (k + l) ↔ InBlock a dst k ∨ InBlock a (dst + k) l := by
  unfold InBlock
  grind

theorem not_inBlock_behind (h : k ≤ k + l) (ha : InBlock a dst k) : ¬ InBlock a (dst + k) l := by
  unfold InBlock at *
  grind

/-- A copy in two parts, where the first does not overwrite what the second reads. -/
theorem blockCopy_add (h : k ≤ k + l) (hsrc : ∀ i, i < l → ¬ InBlock (src + k + i) dst k) :
    blockCopy (blockCopy m dst src k) (dst + k) (src + k) l = blockCopy m dst src (k + l) := by
  funext a
  unfold blockCopy
  by_cases hl : InBlock a (dst + k) l
  · have hk := mt (not_inBlock_behind h) (not_not_intro hl)
    rw [if_pos hl, if_neg (hsrc _ hl), if_pos ((inBlock_add h).mpr (.inr hl))]
    congr 1
    grind
  · rw [if_neg hl]
    by_cases hk : InBlock a dst k
    · rw [if_pos hk, if_pos ((inBlock_add h).mpr (.inl hk))]
    · rw [if_neg hk, if_neg (fun hkl => ((inBlock_add h).mp hkl).elim hk hl)]

theorem blockFill_add {v : UInt8} (h : k ≤ k + l) :
    blockFill (blockFill m dst k v) (dst + k) l v = blockFill m dst (k + l) v := by
  funext a
  unfold blockFill
  by_cases hl : InBlock a (dst + k) l
  · rw [if_pos hl, if_pos ((inBlock_add h).mpr (.inr hl))]
  · rw [if_neg hl]
    by_cases hk : InBlock a dst k
    · rw [if_pos hk, if_pos ((inBlock_add h).mpr (.inl hk))]
    · rw [if_neg hk, if_neg (fun hkl => ((inBlock_add h).mp hkl).elim hk hl)]

theorem inBlock_one : InBlock a dst 1 ↔ a = dst := by
  unfold InBlock
  grind

theorem blockCopy_one : blockCopy m dst src 1 = Function.update m dst (m src) := by
  funext a
  unfold blockCopy
  rw [Function.update_apply]
  by_cases h : a = dst
  · rw [if_pos (inBlock_one.mpr h), if_pos h, h]
    congr 1
    grind
  · rw [if_neg (mt inBlock_one.mp h), if_neg h]

theorem blockFill_one {v : UInt8} : blockFill m dst 1 v = Function.update m dst v := by
  funext a
  unfold blockFill
  rw [Function.update_apply]
  simp only [inBlock_one]

/-- The last byte first, where it does not overwrite what the others read. -/
theorem blockCopy_last (h : k ≤ k + 1) (hsrc : ∀ i, i < k → src + i ≠ dst + k) :
    blockCopy (blockCopy m (dst + k) (src + k) 1) dst src k = blockCopy m dst src (k + 1) := by
  funext a
  rw [blockCopy_one]
  unfold blockCopy
  by_cases hk : InBlock a dst k
  · rw [if_pos hk, if_pos ((inBlock_add h).mpr (.inl hk)), Function.update_of_ne (hsrc _ hk)]
  · rw [if_neg hk]
    by_cases ha : a = dst + k
    · rw [if_pos ((inBlock_add h).mpr (.inr (inBlock_one.mpr ha))), ha, Function.update_self]
      congr 1
      grind
    · have hout : ¬ InBlock a dst (k + 1) := fun hin =>
        ((inBlock_add h).mp hin).elim hk fun h1 => ha (inBlock_one.mp h1)
      rw [if_neg hout, Function.update_of_ne ha]

end Blocks

/-! ## The processor -/

/-- The registers and the flag that the string instructions use, and memory. -/
structure Cpu where
  eax : UInt32
  ecx : UInt32
  edx : UInt32
  esi : UInt32
  edi : UInt32
  df : Bool
  mem : UInt32 → UInt8

namespace Cpu

variable (c : Cpu)

/-- `cld`. -/
def cld : Cpu := { c with df := false }

/-- `std`. -/
def std : Cpu := { c with df := true }

/-- The low byte of `eax`. -/
def al : UInt8 := c.eax.toUInt8

/-- A pointer after a unit of `w` bytes. -/
def stepped (p w : UInt32) : UInt32 := if c.df then p - w else p + w

/-- `movb (%esi), %al`. -/
def movbLoad : Cpu := { c with eax := c.eax &&& 0xFFFFFF00 ||| (c.mem c.esi).toUInt32 }

/-- `movb %al, (%edi)`. -/
def movbStore : Cpu := { c with mem := Function.update c.mem c.edi c.al }

/-- `movsb`, `movsl`: a unit of `w` bytes from `esi` to `edi`. -/
def movs (w : UInt32) : Cpu :=
  { c with mem := blockCopy c.mem c.edi c.esi w, esi := c.stepped c.esi w, edi := c.stepped c.edi w }

/-- `stosw`, `stosl`: the low `w` bytes of `eax` to `edi`, the lowest first. -/
def stos (w : UInt32) : Cpu :=
  { c with
    mem := fun a =>
      if InBlock a c.edi w then (c.eax >>> (8 * (a - c.edi))).toUInt8 else c.mem a
    edi := c.stepped c.edi w }

/-- A round of `rep`. -/
def round (op : Cpu → Cpu) : Cpu := { op c with ecx := c.ecx - 1 }

/-- `rep op`. -/
def rep (op : Cpu → Cpu) : Cpu := (fun c => c.round op)^[c.ecx.toNat] c

variable {c} {op : Cpu → Cpu}

theorem rep_of_zero (h : c.ecx = 0) : c.rep op = c := by
  rw [rep, h]
  rfl

theorem rep_of_ne (h : c.ecx ≠ 0) : c.rep op = (c.round op).rep op := by
  rw [rep, toNat_pred h, Function.iterate_succ_apply]
  rfl

/-- **The rule for `rep`.** -/
theorem rep_inv (op : Cpu → Cpu) {I : Cpu → Prop} (hi : I c)
    (hround : ∀ c, I c → c.ecx ≠ 0 → I (c.round op)) : I (c.rep op) ∧ (c.rep op).ecx = 0 := by
  induction hn : c.ecx.toNat generalizing c with
  | zero =>
    have h0 : c.ecx = 0 := UInt32.toNat_inj.mp hn
    rw [rep_of_zero h0]
    exact ⟨hi, h0⟩
  | succ n ih =>
    have h0 : c.ecx ≠ 0 := by
      intro h
      rw [h] at hn
      cases hn
    rw [rep_of_ne h0]
    exact ih (hround c hi h0) (Nat.succ.inj ((toNat_pred h0).symm.trans hn))

/-- What a round does not change, `rep` does not change. -/
theorem rep_keeps {α : Type} (f : Cpu → α) (hround : ∀ c, f (c.round op) = f c) :
    f (c.rep op) = f c :=
  (rep_inv op (I := fun c' => f c' = f c) rfl fun c' h _ => (hround c').trans h).1

/-- The rule for `rep` in units of `w` bytes up to the byte `n`: `Done j` says that `j` bytes are
done, and a round does one more unit. -/
theorem rep_units {Done : UInt32 → Cpu → Prop} {k n w : UInt32} (hop : ∀ c, (op c).df = c.df)
    (hround : ∀ j c, Done j c → c.df = false → j.toNat + w.toNat ≤ n.toNat →
      Done (j + w) (c.round op))
    (hk : Done k c) (hdf : c.df = false) (hn : k.toNat + w.toNat * c.ecx.toNat = n.toNat) :
    Done n (c.rep op) := by
  obtain ⟨⟨-, j, hj, hjn⟩, h0⟩ := rep_inv op
    (I := fun c' => c'.df = false ∧ ∃ j, Done j c' ∧
      j.toNat + w.toNat * c'.ecx.toNat = n.toNat) ⟨hdf, k, hk, hn⟩ <| by
    rintro c' ⟨hdf', j, hj, hjn⟩ h0
    rw [toNat_pred h0, Nat.mul_succ] at hjn
    have hle : j.toNat + w.toNat ≤ n.toNat := by omega
    refine ⟨(hop c').trans hdf', j + w, hround j c' hj hdf' hle, ?_⟩
    rw [toNat_add_le hle]
    simp only [round]
    omega
  rw [h0] at hjn
  obtain rfl : j = n := UInt32.toNat_inj.mp hjn
  exact hj

@[simp] theorem rep_movs_edx (w : UInt32) : (c.rep (·.movs w)).edx = c.edx :=
  rep_keeps (·.edx) fun _ => rfl

@[simp] theorem rep_stos_edx (w : UInt32) : (c.rep (·.stos w)).edx = c.edx :=
  rep_keeps (·.edx) fun _ => rfl

@[simp] theorem rep_movs_df (w : UInt32) : (c.rep (·.movs w)).df = c.df :=
  rep_keeps (·.df) fun _ => rfl

@[simp] theorem rep_stos_df (w : UInt32) : (c.rep (·.stos w)).df = c.df :=
  rep_keeps (·.df) fun _ => rfl

theorem al_movbLoad : c.movbLoad.al = c.mem c.esi := by
  apply UInt8.eq_of_toBitVec_eq
  apply BitVec.eq_of_getLsbD_eq
  intro i hi
  simp only [al, movbLoad, UInt32.toBitVec_toUInt8, UInt32.toBitVec_or, UInt32.toBitVec_and,
    UInt8.toBitVec_toUInt32, BitVec.getLsbD_setWidth, BitVec.getLsbD_or, BitVec.getLsbD_and]
  have hmask : ∀ i < 8, (0xFFFFFF00 : UInt32).toBitVec.getLsbD i = false := by decide
  rw [hmask i hi, Bool.and_false, Bool.false_or, decide_eq_true hi, decide_eq_true (by omega),
    Bool.true_and, Bool.true_and]

end Cpu

/-! ## Copies from the front -/

/-- No byte of the source is among the bytes of the destination before its own. -/
def CopiesUp (src dst n : UInt32) : Prop := ∀ j, j < n → ¬ InBlock (src + j) dst j

/-- The first `k` bytes of a copy are done. -/
structure CopyDone (m : UInt32 → UInt8) (dst src k : UInt32) (c : Cpu) : Prop where
  mem : c.mem = blockCopy m dst src k
  edi : c.edi = dst + k
  esi : c.esi = src + k

section Copies

variable {m : UInt32 → UInt8} {dst src k n w : UInt32} {c c' : Cpu}

theorem CopiesUp.mono (h : CopiesUp src dst n) (hk : k.toNat ≤ n.toNat) : CopiesUp src dst k :=
  fun j hj => h j (UInt32.lt_of_lt_of_le hj (UInt32.le_iff_toNat_le.mpr hk))

/-- Nothing is done at the start. -/
theorem copyDone_zero (hmem : c.mem = m) (hedi : c.edi = dst) (hesi : c.esi = src) :
    CopyDone m dst src 0 c :=
  ⟨by rw [blockCopy_zero, hmem], by rw [hedi, UInt32.add_zero], by rw [hesi, UInt32.add_zero]⟩

/-- **A step of a copy** of `w` bytes. -/
theorem CopyDone.step (h : CopyDone m dst src k c) (hup : CopiesUp src dst n)
    (hn : k.toNat + w.toNat ≤ n.toNat) (hmem : c'.mem = blockCopy c.mem c.edi c.esi w)
    (hedi : c'.edi = c.edi + w) (hesi : c'.esi = c.esi + w) : CopyDone m dst src (k + w) c' := by
  have hk : k ≤ k + w := by
    rw [UInt32.le_iff_toNat_le, toNat_add_le hn]
    omega
  have hkn : k + w ≤ n := by
    rw [UInt32.le_iff_toNat_le, toNat_add_le hn]
    omega
  refine ⟨?_, by rw [hedi, h.edi]; grind, by rw [hesi, h.esi]; grind⟩
  rw [hmem, h.mem, h.edi, h.esi]
  refine blockCopy_add hk fun i hi => ?_
  have := hup (k + i) (by grind)
  unfold InBlock at *
  grind

/-- The byte that `movb` moves through `al`. -/
theorem CopyDone.movb (h : CopyDone m dst src k c) (hup : CopiesUp src dst n)
    (hn : k.toNat + 1 ≤ n.toNat) (hmem : c'.mem = c.movbLoad.movbStore.mem)
    (hedi : c'.edi = c.edi + 1) (hesi : c'.esi = c.esi + 1) : CopyDone m dst src (k + 1) c' := by
  refine h.step hup hn ?_ hedi hesi
  rw [hmem, blockCopy_one]
  simp only [Cpu.movbStore, Cpu.al_movbLoad]
  rfl

/-- `rep movs` from the front does the rest of a copy. -/
theorem CopyDone.rep (h : CopyDone m dst src k c) (hup : CopiesUp src dst n) (hdf : c.df = false)
    (hn : k.toNat + w.toNat * c.ecx.toNat = n.toNat) :
    CopyDone m dst src n (c.rep (·.movs w)) := by
  refine Cpu.rep_units (fun _ => rfl) (fun j c' hj hdf' hle => ?_) h hdf hn
  refine hj.step hup hle rfl ?_ ?_
  · simp [Cpu.round, Cpu.movs, Cpu.stepped, hdf']
  · simp [Cpu.round, Cpu.movs, Cpu.stepped, hdf']

end Copies

/-! ## Copies from the end -/

/-- No byte of the source is among the bytes of the destination behind its own. -/
def CopiesDown (src dst n : UInt32) : Prop := ∀ j k, j < k → k < n → src + j ≠ dst + k

/-- `rep movsb` from the last byte down. -/
theorem rep_movs_down {dst src : UInt32} {c : Cpu} (hdown : CopiesDown src dst c.ecx)
    (hdf : c.df = true) (hedi : c.edi = dst + (c.ecx - 1)) (hesi : c.esi = src + (c.ecx - 1)) :
    (c.rep (·.movs 1)).mem = blockCopy c.mem dst src c.ecx := by
  induction hn : c.ecx.toNat generalizing c with
  | zero =>
    have h0 : c.ecx = 0 := UInt32.toNat_inj.mp hn
    rw [Cpu.rep_of_zero h0, h0, blockCopy_zero]
  | succ n ih =>
    have h0 : c.ecx ≠ 0 := by
      intro h
      rw [h] at hn
      cases hn
    rw [Cpu.rep_of_ne h0, ih]
    · simp only [Cpu.round, Cpu.movs]
      rw [hedi, hesi, blockCopy_last]
      · congr 1
        grind
      · grind
      · exact fun i hi => hdown i _ hi (by grind)
    · exact fun j k hjk hk => hdown j k hjk (by simp only [Cpu.round] at hk; grind)
    · exact hdf
    · simp only [Cpu.round, Cpu.movs, Cpu.stepped, hdf, hedi, ↓reduceIte]
      grind
    · simp only [Cpu.round, Cpu.movs, Cpu.stepped, hdf, hesi, ↓reduceIte]
      grind
    · exact Nat.succ.inj ((toNat_pred h0).symm.trans hn)

/-! ## Fills -/

/-- The four bytes of a word are `v`. -/
def FillWord (x : UInt32) (v : UInt8) : Prop := ∀ i, i < 4 → (x >>> (8 * i)).toUInt8 = v

/-- The first `k` bytes of a block are set. -/
structure FillDone (m : UInt32 → UInt8) (dst : UInt32) (v : UInt8) (k : UInt32) (c : Cpu) :
    Prop where
  mem : c.mem = blockFill m dst k v
  edi : c.edi = dst + k
  eax : FillWord c.eax v

section Fills

variable {m : UInt32 → UInt8} {v : UInt8} {dst k n w : UInt32} {c c' : Cpu}

theorem FillWord.al (h : FillWord c.eax v) : c.al = v := by
  have := h 0 (by decide)
  simpa [Cpu.al] using this

theorem stos_mem (h : FillWord c.eax v) (hw : w ≤ 4) :
    (c.stos w).mem = blockFill c.mem c.edi w v := by
  funext a
  unfold Cpu.stos blockFill
  dsimp only
  split
  · rename_i ha
    exact h _ (by unfold InBlock at ha; grind)
  · rfl

theorem fillDone_zero (hmem : c.mem = m) (hedi : c.edi = dst) (heax : FillWord c.eax v) :
    FillDone m dst v 0 c :=
  ⟨by rw [blockFill_zero, hmem], by rw [hedi, UInt32.add_zero], heax⟩

/-- A step of a fill of `w` bytes. -/
theorem FillDone.step (h : FillDone m dst v k c) (hn : k.toNat + w.toNat ≤ n.toNat)
    (hmem : c'.mem = blockFill c.mem c.edi w v) (hedi : c'.edi = c.edi + w)
    (heax : c'.eax = c.eax) : FillDone m dst v (k + w) c' := by
  have hk : k ≤ k + w := by
    rw [UInt32.le_iff_toNat_le, toNat_add_le hn]
    omega
  refine ⟨?_, by rw [hedi, h.edi]; grind, by rw [heax]; exact h.eax⟩
  rw [hmem, h.mem, h.edi, blockFill_add hk]

/-- The byte that `movb` stores. -/
theorem FillDone.movb (h : FillDone m dst v k c) (hn : k.toNat + 1 ≤ n.toNat)
    (hmem : c'.mem = c.movbStore.mem) (hedi : c'.edi = c.edi + 1) (heax : c'.eax = c.eax) :
    FillDone m dst v (k + 1) c' := by
  refine h.step hn ?_ hedi heax
  rw [hmem, blockFill_one, ← h.eax.al]
  rfl

/-- `rep stos` does the rest of a fill. -/
theorem FillDone.rep (h : FillDone m dst v k c) (hw : w ≤ 4) (hdf : c.df = false)
    (hn : k.toNat + w.toNat * c.ecx.toNat = n.toNat) :
    FillDone m dst v n (c.rep (·.stos w)) := by
  refine Cpu.rep_units (fun _ => rfl) (fun j c' hj hdf' hle => ?_) h hdf hn
  refine hj.step hle (stos_mem hj.eax hw) ?_ rfl
  simp [Cpu.round, Cpu.stos, Cpu.stepped, hdf']

end Fills
