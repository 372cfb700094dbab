import Mp3Os.Lookup

/-!
# A directory read and the caller's buffer

`dir_read` clears 32 bytes of the buffer whatever `nbytes` is, and copies the name with a
`strncpy` that is bounded by `nbytes` but not by the 32 bytes of the field. So a buffer of less
than 32 bytes is overrun, and a longer one gets more than the name when the field has no NUL
(`dirReadFits_iff`). An index from 64 on fails the lookup, and the caller gets what was on the
stack.
-/

namespace Mp3

open FileSys

/-- `dir_read` writes only the buffer, leaves there the name of the entry, cut to the buffer and
then only zeros, and returns its length if it returns a positive value. -/
structure DirReadFits (fs : FileSys) (nbytes : Nat) (stack buf : Nat → UInt8) : Prop where
  within : ∀ i, nbytes ≤ i → (dirRead fs stack buf nbytes).2.1 i = buf i
  name : ∀ i < min nbytes (fs.entryName fs.curfile).length,
    (dirRead fs stack buf nbytes).2.1 i = (fs.entryName fs.curfile).getD i 0
  zeros : ∀ i < nbytes, (fs.entryName fs.curfile).length ≤ i →
    (dirRead fs stack buf nbytes).2.1 i = 0
  count : 0 < (dirRead fs stack buf nbytes).1 → (dirRead fs stack buf nbytes).1 ≤ nbytes ∧
    (dirRead fs stack buf nbytes).1 = min nbytes (fs.entryName fs.curfile).length

section Copy

variable {dest src : Nat → UInt8} {n i : Nat}

theorem strncpy_of_le (h : n ≤ i) : strncpy dest src n i = dest i := if_neg (by omega)

/-- A byte before the first NUL is copied. -/
theorem strncpy_of_ne (h : i < n) (hs : ∀ j ≤ i, src j ≠ 0) : strncpy dest src n i = src i := by
  have hno : ¬ (List.range (i + 1)).any (fun j => src j = 0) = true := by
    simp only [List.any_eq_true, List.mem_range, decide_eq_true_eq, not_exists, not_and]
    exact fun j hj => hs j (by omega)
  rw [strncpy, if_pos h, if_neg hno]

/-- From the first NUL on the rest is cleared. -/
theorem strncpy_of_eq {j : Nat} (h : i < n) (hj : j ≤ i) (hs : src j = 0) :
    strncpy dest src n i = 0 := by
  have hany : (List.range (i + 1)).any (fun j => src j = 0) = true := by
    simp only [List.any_eq_true, List.mem_range, decide_eq_true_eq]
    exact ⟨j, by omega, hs⟩
  rw [strncpy, if_pos h, if_pos hany]

/-- The first byte is copied, NUL or not. -/
theorem strncpy_zero (h : 0 < n) : strncpy dest src n 0 = src 0 := by
  by_cases hs : src 0 = 0
  · rw [strncpy_of_eq h (Nat.le_refl 0) hs, hs]
  · refine strncpy_of_ne h fun j hj => ?_
    rwa [Nat.le_zero.mp hj]

/-- Behind the name in a `dentry_t` is the low byte of the type. -/
theorem bytes_type (d : Dentry) (stack : Nat → UInt8) :
    d.bytes stack 32 = 0 ↔ d.fileType % 256 = 0 := by
  have htype : d.bytes stack 32 = UInt8.ofNat d.fileType := by
    rw [Dentry.bytes, if_neg (by decide), if_pos (by decide), Nat.sub_self, Nat.pow_zero, Nat.div_one]
  rw [htype, ← UInt8.toNat_inj, UInt8.toNat_ofNat']
  rfl

end Copy

section Name

variable {fs : FileSys} {i j : Nat}

/-- The field holds the name, and a NUL behind it if there is room. -/
theorem entryName_getD (h : j ≤ (fs.entryName i).length) :
    (fs.dentry i).name.getD j = (fs.entryName i).getD j 0 := by
  have hname : cString (fs.dentry i).name.toList = fs.entryName i := rfl
  rw [← (cString_eq_iff (hname ▸ zero_notMem_cString _)).mp hname j h, List.getD_eq_getElem?_getD,
    Buf.getElem?_toList, Buf.getD]
  split <;> rfl

theorem entryName_ne (h : j < (fs.entryName i).length) : (fs.entryName i).getD j 0 ≠ 0 := by
  rw [List.getD_eq_getElem _ _ h]
  intro h0
  exact zero_notMem_cString (fs.dentry i).name.toList (h0 ▸ List.getElem_mem h)

end Name

section Fits

variable {fs : FileSys} {nbytes : Nat} {stack buf : Nat → UInt8}

/-- The buffer after `dir_read`, with the bytes that it copies from. -/
theorem dirRead_buf (hn : nbytes < 2147483648) (i : Nat) :
    (dirRead fs stack buf nbytes).2.1 i =
      strncpy (fun i => if i < 32 then 0 else buf i)
        (if fs.curfile < 64 then (fs.dentry fs.curfile).bytes stack else stack) nbytes i := by
  have hu : u32 (nbytes : Int) = nbytes := u32_natCast (by omega)
  unfold dirRead readDentryByIndex
  dsimp only
  rw [hu]
  by_cases hc : fs.curfile < 64
  · rw [if_neg (show ¬ fs.curfile ≥ 64 by omega), if_pos hc]
    split <;> rfl
  · rw [if_pos (show fs.curfile ≥ 64 by omega), if_neg hc]
    split <;> rfl

/-- A positive return value is the length of the name. -/
theorem dirRead_count (h : 0 < (dirRead fs stack buf nbytes).1) :
    (dirRead fs stack buf nbytes).1 = (fs.entryName fs.curfile).length := by
  have hret : (dirRead fs stack buf nbytes).1 = (fs.dirCall ⟨stack, buf, nbytes⟩).1 := rfl
  rw [hret] at h ⊢
  by_cases hl : u32 (fs.curfile + 1) = fs.numdentries
  · rw [(dirCall_last hl).1] at h
    exact absurd h (Int.lt_irrefl 0)
  · rw [(dirCall_next hl).1, readDentryByIndex] at h ⊢
    split at h
    · exact absurd h (by decide)
    · rename_i hc
      rw [if_neg hc]
      rfl

/-- With at least 32 bytes, an index of the table, and a NUL behind the name where the copy looks
for one, `dir_read` respects the buffer. -/
theorem dirReadFits_of (hn : nbytes < 2147483648) (h32 : 32 ≤ nbytes) (hc : fs.curfile < 64)
    (hnul : (fs.entryName fs.curfile).length < 32 ∨ nbytes = 32 ∨
      (fs.dentry fs.curfile).fileType % 256 = 0) : DirReadFits fs nbytes stack buf := by
  have hlen := length_entryName_le fs fs.curfile
  have hbyte : ∀ j < 32, (fs.dentry fs.curfile).bytes stack j = (fs.dentry fs.curfile).name.getD j :=
    fun j hj => if_pos hj
  constructor
  · intro i hi
    rw [dirRead_buf hn, strncpy_of_le hi]
    exact if_neg (by omega)
  · intro i hi
    rw [dirRead_buf hn, if_pos hc, strncpy_of_ne (by omega), hbyte i (by omega),
      entryName_getD (by omega)]
    intro j hj
    rw [hbyte j (by omega), entryName_getD (by omega)]
    exact entryName_ne (by omega)
  · intro i hi hge
    rw [dirRead_buf hn, if_pos hc]
    by_cases hshort : (fs.entryName fs.curfile).length < 32
    · -- the NUL in the field
      refine strncpy_of_eq hi hge ?_
      rw [hbyte _ hshort, entryName_getD (Nat.le_refl _), List.getD_eq_default _ _ (Nat.le_refl _)]
    · -- the first byte of the type behind it
      exact strncpy_of_eq (j := 32) hi (by omega) ((bytes_type _ _).mpr (by omega))
  · intro hpos
    rw [dirRead_count hpos]
    omega

/-- A buffer of less than 32 bytes is overrun. -/
theorem not_dirReadFits_of_short (hn : nbytes < 32) :
    ¬ DirReadFits fs nbytes stack fun _ => 1 := by
  intro h
  have hbyte := h.within nbytes (Nat.le_refl _)
  rw [dirRead_buf (by omega), strncpy_of_le (Nat.le_refl _), if_pos hn] at hbyte
  exact absurd hbyte (by decide)

/-- An index behind the table delivers the first byte of the stack. -/
theorem not_dirReadFits_of_index (hn : nbytes < 2147483648) (h0 : 0 < nbytes)
    (hc : ¬ fs.curfile < 64) :
    ¬ DirReadFits fs nbytes (fun _ => (fs.entryName fs.curfile).getD 0 0 + 1) buf := by
  generalize hb : (fs.entryName fs.curfile).getD 0 0 = b
  intro h
  have hbyte : (dirRead fs (fun _ => b + 1) buf nbytes).2.1 0 = b := by
    by_cases hlen : 0 < (fs.entryName fs.curfile).length
    · exact (h.name 0 (by omega)).trans hb
    · rw [List.getD_eq_default _ _ (by omega)] at hb
      exact (h.zeros 0 h0 (by omega)).trans hb
  rw [dirRead_buf hn, if_neg hc, strncpy_zero h0] at hbyte
  simp at hbyte

/-- A name without a NUL is followed by the byte of the type. -/
theorem not_dirReadFits_of_full (hn : nbytes < 2147483648) (h32 : 32 < nbytes)
    (hc : fs.curfile < 64) (hlen : (fs.entryName fs.curfile).length = 32)
    (htype : (fs.dentry fs.curfile).fileType % 256 ≠ 0) : ¬ DirReadFits fs nbytes stack buf := by
  intro h
  have hne : (fs.dentry fs.curfile).bytes stack 32 ≠ 0 := mt (bytes_type _ _).mp htype
  have hbyte := h.zeros 32 h32 (by omega)
  rw [dirRead_buf hn, if_pos hc, strncpy_of_ne h32] at hbyte
  · exact hne hbyte
  · intro j hj
    by_cases hlast : j = 32
    · rwa [hlast]
    · rw [Dentry.bytes, if_pos (by omega), entryName_getD (by omega)]
      exact entryName_ne (by omega)

/-- **`dir_read` respects every buffer** exactly if it has at least 32 bytes, the index is in the
table, and the name has a NUL, or fills the buffer, or is followed by a zero byte. -/
theorem dirReadFits_iff (hn : nbytes < 2147483648) :
    (∀ stack buf, DirReadFits fs nbytes stack buf) ↔
      32 ≤ nbytes ∧ fs.curfile < 64 ∧ ((fs.entryName fs.curfile).length < 32 ∨ nbytes = 32 ∨
        (fs.dentry fs.curfile).fileType % 256 = 0) := by
  have hlen := length_entryName_le fs fs.curfile
  constructor
  · intro h
    have h32 : 32 ≤ nbytes := by
      by_contra hlt
      exact not_dirReadFits_of_short (by omega) (h (fun _ => 0) _)
    have hc : fs.curfile < 64 := by
      by_contra hge
      exact not_dirReadFits_of_index hn (by omega) hge (h _ fun _ => 0)
    refine ⟨h32, hc, ?_⟩
    by_contra hno
    exact not_dirReadFits_of_full hn (by omega) hc (by omega) (by omega)
      (h (fun _ => 0) fun _ => 0)
  · rintro ⟨h32, hc, hnul⟩ stack buf
    exact dirReadFits_of hn h32 hc hnul

end Fits

/-- The listing of `ls` on the small machine reads into 32 bytes. -/
theorem dirReadFits_sample :
    DirReadFits (filesysInit sampleImage) 32 (fun _ => 0xFF) (fun _ => 0xFF) :=
  (dirReadFits_iff (by decide)).mpr (by decide +kernel) _ _

/-- A read of one byte clears 32. -/
theorem short_buffer_overrun : (filesysInit sampleImage).curfile <
      (filesysInit sampleImage).numdentries ∧
    ¬ ∀ stack buf, DirReadFits (filesysInit sampleImage) 1 stack buf :=
  ⟨by decide +kernel, fun h => not_dirReadFits_of_short (by decide) (h (fun _ => 0) _)⟩

end Mp3
