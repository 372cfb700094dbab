import Mp3Os.Lib.Bytes
import Mp3Os.Lib.Lts
import Mp3Os.Lib.StringOps

/-!
# The memory routines (`lib.c`)

`memset`, `memcpy` and `memmove` are assembly. The first two have the same three loops: byte by byte
up to an aligned address, in units of four bytes from there, and byte by byte at the end
(`blockTop`). They differ in what moves a byte and in the string instruction. `memmove` copies bytes
from the front or, when the destination is above the source, from the end. A test with the jump
behind it is an `if`, and each routine returns its first argument.

`memory_primitives`: each of them is one block operation, whatever the alignment, the overlap and
the direction flag on entry. The last part is about the flag on return: `memmove` sets it for a copy
from the end and does not clear it (`directionClear_iff`).
-/

namespace Mp3

/-! ## The routines -/

/-- `.memset_bottom` and `.memcpy_bottom`: `edx` more bytes. -/
def blockBottom (move : Cpu → Cpu) (c : Cpu) : Cpu :=
  if c.edx = 0 then c else blockBottom move { move c with edx := c.edx - 1 }
termination_by c.edx.toNat
decreasing_by exact toNat_pred_lt ‹_›

/-- `.memset_aligned` and `.memcpy_aligned`: `op` for units of four bytes, and the rest. -/
def blockAligned (move op : Cpu → Cpu) (c : Cpu) : Cpu :=
  let c := { c with edx := c.ecx, ecx := c.ecx >>> 2 }
  let c := { c with edx := c.edx &&& 3 }.cld
  blockBottom move (c.rep op)

/-- `.memset_top` and `.memcpy_top`: bytes up to an aligned address. -/
def blockTop (move op : Cpu → Cpu) (c : Cpu) : Cpu :=
  if c.ecx = 0 then c
  else if c.edi &&& 3 = 0 then blockAligned move op c
  else blockTop move op { move c with ecx := c.ecx - 1 }
termination_by c.ecx.toNat
decreasing_by exact toNat_pred_lt ‹_›

/-- The byte of `memset`. -/
def setByte (c : Cpu) : Cpu := { c.movbStore with edi := c.edi + 1 }

/-- The word that `memset` fills with: the low byte of `x` four times. -/
def fillEax (x : UInt32) : UInt32 :=
  let c := x &&& 0xFF
  c <<< 24 ||| c <<< 16 ||| c <<< 8 ||| c

/-- `memset(s, x, n)`. -/
def memset (c : Cpu) (s x n : UInt32) : Cpu :=
  blockTop setByte (·.stos 4) { c with eax := fillEax x, edi := s, ecx := n }

/-- `memset_word(s, v, n)`. -/
def memsetWord (c : Cpu) (s v n : UInt32) : Cpu :=
  { c with eax := v, edi := s, ecx := n }.cld.rep (·.stos 2)

/-- `memset_dword(s, v, n)`. -/
def memsetDword (c : Cpu) (s v n : UInt32) : Cpu :=
  { c with eax := v, edi := s, ecx := n }.cld.rep (·.stos 4)

/-- The byte of `memcpy`. -/
def copyByte (c : Cpu) : Cpu := { c.movbLoad.movbStore with edi := c.edi + 1, esi := c.esi + 1 }

/-- `memcpy(dest, src, n)`. -/
def memcpy (c : Cpu) (dest src n : UInt32) : Cpu :=
  blockTop copyByte (·.movs 4) { c with esi := src, edi := dest, ecx := n }

/-- `memmove(dest, src, n)`. -/
def memmove (c : Cpu) (dest src n : UInt32) : Cpu :=
  let c := { c with edi := dest, esi := src, ecx := n }.cld
  let c :=
    if c.edi ≤ c.esi then c
    else { c with esi := c.esi + c.ecx - 1, edi := c.edi + c.ecx - 1 }.std
  c.rep (·.movs 1)

/-! ## The three loops -/

/-- What the three loops need to do a block of `n` bytes: `Done k` says that `k` bytes are done,
each `move` does one more and `rep op` does four in each round. -/
structure BlockSteps (move op : Cpu → Cpu) (Done : UInt32 → Cpu → Prop) (n : UInt32) : Prop where
  counters : ∀ k c ecx edx df, Done k c → Done k { c with ecx := ecx, edx := edx, df := df }
  move : ∀ k c, Done k c → k.toNat + 1 ≤ n.toNat → Done (k + 1) (move c)
  rep : ∀ k q c, Done k c → c.df = false → k.toNat + 4 * c.ecx.toNat = q.toNat →
    q.toNat ≤ n.toNat → Done q (c.rep op)
  edx : ∀ c : Cpu, (c.rep op).edx = c.edx

section Loops

variable {move op : Cpu → Cpu} {Done : UInt32 → Cpu → Prop} {n k : UInt32} {c : Cpu}

theorem toNat_shiftRight_two (x : UInt32) : (x >>> 2).toNat = x.toNat / 4 := by
  rw [UInt32.toNat_shiftRight]
  exact Nat.shiftRight_eq_div_pow _ _

theorem toNat_and_three (x : UInt32) : (x &&& 3).toNat = x.toNat % 4 := by
  rw [UInt32.toNat_and]
  exact Nat.and_two_pow_sub_one_eq_mod _ 2

theorem blockBottom_done (h : BlockSteps move op Done n) (hk : Done k c)
    (hn : k.toNat + c.edx.toNat = n.toNat) : Done n (blockBottom move c) := by
  fun_induction blockBottom move c generalizing k with
  | case1 c h0 =>
    rw [h0] at hn
    obtain rfl : k = n := UInt32.toNat_inj.mp hn
    exact hk
  | case2 c h0 ih =>
    rw [toNat_pred h0] at hn
    have hle : k.toNat + 1 ≤ n.toNat := by omega
    refine ih (h.counters _ _ (move c).ecx (c.edx - 1) (move c).df (h.move k c hk hle)) ?_
    rw [toNat_succ hle]
    show k.toNat + 1 + (c.edx - 1).toNat = n.toNat
    omega

theorem blockAligned_done (h : BlockSteps move op Done n) (hk : Done k c)
    (hn : k.toNat + c.ecx.toNat = n.toNat) : Done n (blockAligned move op c) := by
  -- the bytes before the tail
  obtain ⟨q, hq⟩ : ∃ q : UInt32, q.toNat = k.toNat + 4 * (c.ecx.toNat / 4) :=
    ⟨UInt32.ofNat (k.toNat + 4 * (c.ecx.toNat / 4)), by
      have := n.toNat_lt
      rw [UInt32.toNat_ofNat', Nat.mod_eq_of_lt (by omega)]⟩
  have hunits :
      Done q (Cpu.rep { c with ecx := c.ecx >>> 2, edx := c.ecx &&& 3, df := false } op) := by
    refine h.rep k q _ (h.counters k c _ _ _ hk) rfl ?_ (by omega)
    show k.toNat + 4 * (c.ecx >>> 2).toNat = q.toNat
    rw [toNat_shiftRight_two, hq]
  refine blockBottom_done h hunits ?_
  rw [h.edx]
  show q.toNat + (c.ecx &&& 3).toNat = n.toNat
  rw [toNat_and_three, hq]
  omega

/-- **The three loops do the block.** -/
theorem blockTop_done (h : BlockSteps move op Done n) (hk : Done k c)
    (hn : k.toNat + c.ecx.toNat = n.toNat) : Done n (blockTop move op c) := by
  fun_induction blockTop move op c generalizing k with
  | case1 c h0 =>
    rw [h0] at hn
    obtain rfl : k = n := UInt32.toNat_inj.mp hn
    exact hk
  | case2 c _ _ => exact blockAligned_done h hk hn
  | case3 c h0 _ ih =>
    rw [toNat_pred h0] at hn
    have hle : k.toNat + 1 ≤ n.toNat := by omega
    refine ih (h.counters _ _ (c.ecx - 1) (move c).edx (move c).df (h.move k c hk hle)) ?_
    rw [toNat_succ hle]
    show k.toNat + 1 + (c.ecx - 1).toNat = n.toNat
    omega

end Loops

/-! ## One block operation each -/

section Blocks

variable {m : UInt32 → UInt8} {v : UInt8} {dest src n : UInt32} {c : Cpu}

theorem blockSteps_copy (hup : CopiesUp src dest n) :
    BlockSteps copyByte (·.movs 4) (CopyDone m dest src) n where
  counters _ _ _ _ _ h := ⟨h.mem, h.edi, h.esi⟩
  move _ _ h hn := h.movb hup hn rfl rfl rfl
  rep _ _ _ h hdf hq hn := h.rep (hup.mono hn) hdf hq
  edx _ := Cpu.rep_movs_edx 4

theorem blockSteps_fill : BlockSteps setByte (·.stos 4) (FillDone m dest v) n where
  counters _ _ _ _ _ h := ⟨h.mem, h.edi, h.eax⟩
  move _ _ h hn := h.movb hn rfl rfl rfl
  rep _ _ _ h hdf hq _ := h.rep (by decide) hdf hq
  edx _ := Cpu.rep_stos_edx 4

/-- `memcpy` copies the block if it does not overwrite what it has still to read. -/
theorem memcpy_mem (hup : CopiesUp src dest n) :
    (memcpy c dest src n).mem = blockCopy c.mem dest src n := by
  have hstart : CopyDone c.mem dest src 0 { c with esi := src, edi := dest, ecx := n } :=
    copyDone_zero rfl rfl rfl
  exact (blockTop_done (blockSteps_copy hup) hstart (Nat.zero_add _)).mem

theorem getLsbD_low (x : UInt32) (i : Nat) :
    (x &&& 0xFF).toBitVec.getLsbD i = (x.toBitVec.getLsbD i && decide (i < 8)) := by
  have hmask : (0xFF : UInt32).toBitVec.getLsbD i = decide (i < 8) := by
    by_cases h : i < 32
    · revert i
      decide
    · rw [BitVec.getLsbD_of_ge _ _ (by omega), decide_eq_false (by omega)]
  rw [UInt32.toBitVec_and, BitVec.getLsbD_and, hmask]

theorem fillWord_fillEax (x : UInt32) : FillWord (fillEax x) x.toUInt8 := by
  intro i hi
  have hv := getLsbD_low x
  unfold fillEax
  generalize x &&& 0xFF = v at hv ⊢
  apply UInt8.eq_of_toBitVec_eq
  apply BitVec.eq_of_getLsbD_eq
  intro j hj
  -- bit `j` of byte `i` comes from one of the four shifted copies
  have hi : i = 0 ∨ i = 1 ∨ i = 2 ∨ i = 3 := by grind
  rcases hi with rfl | rfl | rfl | rfl
  · simp [hv, hj]
  · simp [hv, hj]
    grind
  · simp [hv, hj]
    grind
  · simp [hv, hj]
    grind

/-- `memset` fills the block. -/
theorem memset_mem (x : UInt32) :
    (memset c dest x n).mem = blockFill c.mem dest n x.toUInt8 := by
  have hstart : FillDone c.mem dest x.toUInt8 0
      { c with eax := fillEax x, edi := dest, ecx := n } :=
    fillDone_zero rfl rfl (fillWord_fillEax x)
  exact (blockTop_done blockSteps_fill hstart (Nat.zero_add _)).mem

/-- `memmove` copies the block from the end that its pointers allow. -/
theorem memmove_mem (hup : dest ≤ src → CopiesUp src dest n)
    (hdown : src < dest → CopiesDown src dest n) :
    (memmove c dest src n).mem = blockCopy c.mem dest src n := by
  unfold memmove Cpu.cld
  dsimp only
  split
  · rename_i hle
    have hstart : CopyDone c.mem dest src 0
        { c with edi := dest, esi := src, ecx := n, df := false } := copyDone_zero rfl rfl rfl
    refine (hstart.rep (hup hle) rfl ?_).mem
    show 0 + 1 * n.toNat = n.toNat
    omega
  · rename_i hlt
    refine rep_movs_down (hdown (UInt32.not_le.mp hlt)) rfl ?_ ?_
    · show dest + n - 1 = dest + (n - 1)
      grind
    · show src + n - 1 = src + (n - 1)
      grind

end Blocks

/-! ## What a caller sees -/

/-- The `n` bytes at `p` do not wrap around. -/
def NoWrap (p n : UInt32) : Prop := p.toNat + n.toNat ≤ 4294967296

instance (p n : UInt32) : Decidable (NoWrap p n) := inferInstanceAs (Decidable (_ ≤ _))

/-- The byte `a` is one of the `n` bytes at `p`. -/
def Within (a p n : UInt32) : Prop := p.toNat ≤ a.toNat ∧ a.toNat < p.toNat + n.toNat

/-- The destination has the bytes that the source had, and no other byte is changed. -/
structure Moved (m m' : UInt32 → UInt8) (dest src n : UInt32) : Prop where
  bytes : ∀ i, i < n → m' (dest + i) = m (src + i)
  rest : ∀ a, ¬ Within a dest n → m' a = m a

/-- The `n` bytes at `s` are `v`, and no other byte is changed. -/
structure Filled (m m' : UInt32 → UInt8) (s n : UInt32) (v : UInt8) : Prop where
  bytes : ∀ i, i < n → m' (s + i) = v
  rest : ∀ a, ¬ Within a s n → m' a = m a

section Ranges

variable {m m' : UInt32 → UInt8} {a p dest src n i : UInt32} {v : UInt8}

theorem NoWrap.toNat_add (h : NoWrap p n) (hi : i < n) : (p + i).toNat = p.toNat + i.toNat := by
  have := UInt32.lt_iff_toNat_lt.mp hi
  unfold NoWrap at h
  rw [UInt32.toNat_add, Nat.mod_eq_of_lt (by omega)]

/-- The bytes of a block that does not wrap around. -/
theorem NoWrap.inBlock_iff (h : NoWrap p n) : InBlock a p n ↔ Within a p n := by
  unfold InBlock Within NoWrap at *
  have := a.toNat_lt
  have := p.toNat_lt
  rw [UInt32.lt_iff_toNat_lt, UInt32.toNat_sub]
  omega

theorem inBlock_self_add (hi : i < n) : InBlock (p + i) p n := by
  unfold InBlock
  grind

theorem NoWrap.moved (h : NoWrap dest n) (hm : m' = blockCopy m dest src n) :
    Moved m m' dest src n := by
  subst hm
  refine ⟨fun i hi => ?_, fun a ha => if_neg (mt h.inBlock_iff.mp ha)⟩
  unfold blockCopy
  rw [if_pos (inBlock_self_add hi)]
  congr 1
  grind

theorem NoWrap.filled (h : NoWrap p n) (hm : m' = blockFill m p n v) : Filled m m' p n v := by
  subst hm
  exact ⟨fun i hi => if_pos (inBlock_self_add hi), fun a ha => if_neg (mt h.inBlock_iff.mp ha)⟩

/-- A copy to lower addresses can go up. -/
theorem NoWrap.copiesUp (hsrc : NoWrap src n) (hle : dest ≤ src) : CopiesUp src dest n := by
  intro j hj
  have hadd := hsrc.toNat_add hj
  have := (src + j).toNat_lt
  rw [UInt32.le_iff_toNat_le] at hle
  unfold InBlock
  rw [UInt32.lt_iff_toNat_lt, UInt32.toNat_sub]
  omega

/-- A copy to higher addresses can go down. -/
theorem NoWrap.copiesDown (hsrc : NoWrap src n) (hdest : NoWrap dest n) (hlt : src < dest) :
    CopiesDown src dest n := by
  intro j k hjk hk heq
  have h := congrArg UInt32.toNat heq
  rw [hsrc.toNat_add (UInt32.lt_trans hjk hk), hdest.toNat_add hk] at h
  rw [UInt32.lt_iff_toNat_lt] at hlt hjk
  omega

/-- A copy between disjoint blocks can go up. -/
theorem NoWrap.copiesUp_of_disjoint (hsrc : NoWrap src n) (hdest : NoWrap dest n)
    (hdis : ∀ a, ¬ (Within a dest n ∧ Within a src n)) : CopiesUp src dest n := by
  intro j hj hin
  have hwsrc : Within (src + j) src n := hsrc.inBlock_iff.mp (inBlock_self_add hj)
  refine hdis (src + j) ⟨hdest.inBlock_iff.mp ?_, hwsrc⟩
  unfold InBlock at *
  exact UInt32.lt_trans hin hj

end Ranges

/-- **The memory routines.** For every memory and either direction flag: `memmove` moves its block
whatever the overlap, `memcpy` moves a block to a disjoint one and `memset` fills its block, and none
of them changes another byte. -/
theorem memory_primitives (c : Cpu) :
    (∀ dest src n, NoWrap dest n → NoWrap src n →
      Moved c.mem (memmove c dest src n).mem dest src n) ∧
    (∀ dest src n, NoWrap dest n → NoWrap src n → (∀ a, ¬ (Within a dest n ∧ Within a src n)) →
      Moved c.mem (memcpy c dest src n).mem dest src n) ∧
    ∀ s x n, NoWrap s n → Filled c.mem (memset c s x n).mem s n x.toUInt8 := by
  refine ⟨fun dest src n hdest hsrc => ?_, fun dest src n hdest hsrc hdis => ?_,
    fun s x n hs => hs.filled (memset_mem x)⟩
  · exact hdest.moved (memmove_mem hsrc.copiesUp (hsrc.copiesDown hdest))
  · exact hdest.moved (memcpy_mem (hsrc.copiesUp_of_disjoint hdest hdis))

/-- With the direction flag set: a move by one byte up, a copy to an odd address and a fill that
starts and ends between words. -/
theorem memory_primitives_sample :
    let c : Cpu := ⟨0, 0, 0, 0, 0, true, fun a => a.toUInt8⟩
    Moved c.mem (memmove c 0x1001 0x1000 3).mem 0x1001 0x1000 3 ∧
    Moved c.mem (memcpy c 0x1001 0x2000 9).mem 0x1001 0x2000 9 ∧
    Filled c.mem (memset c 0x1003 0x141 6).mem 0x1003 6 0x41 := by
  intro c
  refine ⟨(memory_primitives c).1 0x1001 0x1000 3 (by decide) (by decide),
    (memory_primitives c).2.1 0x1001 0x2000 9 (by decide) (by decide) fun a ha => ?_,
    (memory_primitives c).2.2 0x1003 0x141 6 (by decide)⟩
  obtain ⟨⟨-, hd⟩, hs, -⟩ := ha
  exact absurd (Nat.lt_of_le_of_lt hs hd) (by decide)

/-! ## Arrays

What the routines are on the arrays of the other modules. -/

section Arrays

variable {c : Cpu} {p q k n : UInt32}

/-- The array of `n` bytes at `p`. -/
def bufAt (m : UInt32 → UInt8) (p n : UInt32) : Buf n.toNat := fun i => m (p + UInt32.ofNat i.val)

theorem toNat_index (i : Fin n.toNat) : (UInt32.ofNat i.val).toNat = i.val := by
  have := n.toNat_lt
  rw [UInt32.toNat_ofNat', Nat.mod_eq_of_lt (by omega)]

/-- The byte `i` of an array is one of its first `k` exactly if `i < k`. -/
theorem within_index (h : NoWrap p n) (i : Fin n.toNat) :
    Within (p + UInt32.ofNat i.val) p k ↔ i.val < k.toNat := by
  have hi : UInt32.ofNat i.val < n := by
    rw [UInt32.lt_iff_toNat_lt, toNat_index]
    exact i.2
  unfold Within
  rw [h.toNat_add hi, toNat_index]
  omega

theorem index_lt_iff (i : Fin n.toNat) : UInt32.ofNat i.val < k ↔ i.val < k.toNat := by
  rw [UInt32.lt_iff_toNat_lt, toNat_index]

theorem NoWrap.front (h : NoWrap p n) (hk : k ≤ n) : NoWrap p k := by
  rw [UInt32.le_iff_toNat_le] at hk
  unfold NoWrap at *
  omega

/-- `memset(b, 0, n)` of an array. -/
theorem memset_bufAt (h : NoWrap p n) : bufAt (memset c p 0 n).mem p n = Buf.zero := by
  funext i
  exact (h.filled (memset_mem 0)).bytes _ ((index_lt_iff i).mpr i.2)

/-- `memcpy` of the first `k` bytes of an array. -/
theorem memcpy_bufAt (hp : NoWrap p n) (hq : NoWrap q n) (hk : k ≤ n)
    (hdis : ∀ a, ¬ (Within a p k ∧ Within a q k)) :
    bufAt (memcpy c p q k).mem p n = (bufAt c.mem p n).copyPrefix (bufAt c.mem q n) k.toNat := by
  have hmoved := (hp.front hk).moved
    (memcpy_mem (c := c) ((hq.front hk).copiesUp_of_disjoint (hp.front hk) hdis))
  funext i
  unfold bufAt Buf.copyPrefix
  dsimp only
  split
  · rename_i hi
    exact hmoved.bytes _ ((index_lt_iff i).mpr (by omega))
  · rename_i hi
    exact hmoved.rest _ (mt (within_index hp i).mp (by omega))

/-- `memmove(b, b + k, n - k)`: the bytes from `k` on move to the front. -/
theorem memmove_bufAt (h : NoWrap p n) (hk : k ≤ n) :
    bufAt (memmove c p (p + k) (n - k)).mem p n = (bufAt c.mem p n).shiftDown k.toNat := by
  have hsub := UInt32.toNat_sub_of_le _ _ hk
  have hkn := UInt32.le_iff_toNat_le.mp hk
  have hdest : NoWrap p (n - k) := h.front (by rw [UInt32.le_iff_toNat_le]; omega)
  have hsrc : NoWrap (p + k) (n - k) := by
    unfold NoWrap at *
    rw [UInt32.toNat_add]
    omega
  have hmoved := hdest.moved (memmove_mem (c := c) hsrc.copiesUp (hsrc.copiesDown hdest))
  funext i
  unfold bufAt Buf.shiftDown
  dsimp only
  split
  · rename_i hi
    rw [hmoved.bytes _ ((index_lt_iff i).mpr (by omega))]
    rw [UInt32.add_assoc, Nat.add_comm i.val, UInt32.ofNat_add, UInt32.ofNat_toNat]
  · rename_i hi
    exact hmoved.rest _ (mt (within_index h i).mp (by omega))

end Arrays

/-! ## The direction flag -/

/-- A call of one of the routines. -/
inductive MemCall where
  | memset (s x n : UInt32)
  | memsetWord (s x n : UInt32)
  | memsetDword (s x n : UInt32)
  | memcpy (dest src n : UInt32)
  | memmove (dest src n : UInt32)

def MemCall.run : MemCall → Cpu → Cpu
  | .memset s x n, c => Mp3.memset c s x n
  | .memsetWord s x n, c => Mp3.memsetWord c s x n
  | .memsetDword s x n, c => Mp3.memsetDword c s x n
  | .memcpy dest src n, c => Mp3.memcpy c dest src n
  | .memmove dest src n, c => Mp3.memmove c dest src n

/-- Sequences of calls. -/
def memCalls : Lts Cpu MemCall where
  step c call := some (call.run c)

/-- The call is no `memmove` to a higher address. -/
def MemCall.Upward : MemCall → Prop
  | .memmove dest src _ => dest ≤ src
  | _ => True

section Direction

variable {move op : Cpu → Cpu} {c : Cpu}

theorem blockBottom_df (hmove : ∀ c, (move c).df = c.df) : (blockBottom move c).df = c.df := by
  fun_induction blockBottom move c with
  | case1 => rfl
  | case2 c _ ih => exact ih.trans (hmove c)

/-- The loops clear the flag or leave it. -/
theorem blockTop_df (hmove : ∀ c, (move c).df = c.df) (hop : ∀ c : Cpu, (c.rep op).df = c.df)
    (h : c.df = false) : (blockTop move op c).df = false := by
  fun_induction blockTop move op c with
  | case1 => exact h
  | case2 c =>
    rw [blockAligned, blockBottom_df hmove, hop]
    rfl
  | case3 c _ _ ih => exact ih ((hmove c).trans h)

/-- `memmove` leaves the flag set when it copied from the end. -/
theorem memmove_df (dest src n : UInt32) : (memmove c dest src n).df = !decide (dest ≤ src) := by
  unfold memmove
  dsimp only [Cpu.cld]
  rw [Cpu.rep_movs_df]
  by_cases h : dest ≤ src
  · simp [h]
  · simp [h, Cpu.std]

/-- **One call** with the flag clear leaves it clear exactly if it is no `memmove` to a higher
address. -/
theorem run_df (call : MemCall) (h : c.df = false) : (call.run c).df = false ↔ call.Upward := by
  cases call with
  | memset s x n =>
    exact iff_of_true (blockTop_df (fun _ => rfl) (fun _ => Cpu.rep_stos_df 4) h) trivial
  | memsetWord s x n => exact iff_of_true (Cpu.rep_stos_df 2) trivial
  | memsetDword s x n => exact iff_of_true (Cpu.rep_stos_df 4) trivial
  | memcpy dest src n =>
    exact iff_of_true (blockTop_df (fun _ => rfl) (fun _ => Cpu.rep_movs_df 4) h) trivial
  | memmove dest src n =>
    simp [MemCall.run, MemCall.Upward, memmove_df]

end Direction

/-- **The flag stays clear** along a sequence of calls exactly if no `memmove` of it is to a higher
address. -/
theorem directionClear_iff (c : Cpu) (h : c.df = false) (calls : List MemCall) :
    memCalls.Always (·.df = false) c calls ↔ ∀ call ∈ calls, call.Upward := by
  obtain ⟨c', hr⟩ := memCalls.run_total (fun _ _ => ⟨_, rfl⟩) c calls
  rw [← Lts.along_iff_mem hr]
  refine Lts.always_iff_along (I := fun _ => True) (fun _ _ _ _ _ => trivial) ?_ trivial h hr
  intro c call c' _ h hs
  cases hs
  exact run_df call h

/-- A line is moved to the front of its buffer, and the buffer is cleared. -/
theorem directionClear_sample :
    memCalls.Always (·.df = false) ⟨0, 0, 0, 0, 0, false, fun _ => 0⟩
      [.memmove 0x410000 0x410002 126, .memset 0x410000 0 128] := by
  refine (directionClear_iff _ rfl _).mpr fun call hcall => ?_
  simp only [List.mem_cons, List.not_mem_nil, or_false] at hcall
  rcases hcall with rfl | rfl
  · show (0x410000 : UInt32) ≤ 0x410002
    decide
  · trivial

/-- A character is moved up to the buffer of a program, and the flag is set afterwards. -/
theorem memmove_leaves_direction :
    (memmove ⟨0, 0, 0, 0, 0, false, fun _ => 0⟩ 0x8048000 0x410000 1).df = true ∧
    ¬ memCalls.Always (·.df = false) ⟨0, 0, 0, 0, 0, false, fun _ => 0⟩
      [.memmove 0x8048000 0x410000 1] := by
  have hset : (memmove ⟨0, 0, 0, 0, 0, false, fun _ => 0⟩ 0x8048000 0x410000 1).df = true := by
    rw [memmove_df]
    decide
  refine ⟨hset, fun h => ?_⟩
  have hclear : (memmove ⟨0, 0, 0, 0, 0, false, fun _ => 0⟩ 0x8048000 0x410000 1).df = false :=
    h.2 _ rfl
  rw [hset] at hclear
  cases hclear

end Mp3
