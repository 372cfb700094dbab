import Mathlib.Data.List.GetD
import Mp3Os.Directory

/-!
# Lookups by name

`read_dentry_by_name` compares at most 32 bytes and looks at 64 slots: it finds the first slot
that holds the first 32 characters of the name (`readDentryByName_eq`). A directory has
`numdentries` entries, and its names have up to 32 characters. So the lookup is exact
(`LookupExact`) unless it finds a long name by its first 32 characters, or a name in a slot that
is not an entry (`lookupExact_iff`).
-/

namespace Mp3

open FileSys

/-- The C string at `fname`, whatever lies behind its NUL. -/
structure IsName (fname : Nat → UInt8) (str : List UInt8) : Prop where
  noNul : 0 ∉ str
  bytes : ∀ i ≤ str.length, fname i = str.getD i 0

/-- The first of `n` slots with a name. -/
def FileSys.firstNamed (fs : FileSys) (n : Nat) (str : List UInt8) : Option Nat :=
  (List.range n).find? fun i => fs.entryName i = str

/-- The lookup finds the first entry with this name, and nothing if there is none. -/
def LookupExact (fs : FileSys) (fname : Nat → UInt8) (str : List UInt8) : Prop :=
  readDentryByName fs fname = (fs.firstNamed fs.numdentries str).map fs.dentry

section Compare

variable {fname : Nat → UInt8} {str : List UInt8}

theorem toList_drop (b : Buf 32) {i : Nat} (h : i < 32) :
    b.toList.drop i = b.getD i :: b.toList.drop (i + 1) := by
  have hi : i < b.toList.length := by simpa using h
  rw [List.drop_eq_getElem_cons hi, Buf.getElem_toList, Buf.getD, dif_pos h]

/-- The comparison from byte `idx` on: the rest of the field, up to its NUL, is the rest of the
name as far as the field can hold it. -/
theorem nameMatch_iff (name : Buf 32) (hn : IsName fname str) (fuel idx : Nat) (h0 : 0 < fuel)
    (hf : idx + fuel = 32) (hi : idx ≤ str.length) :
    nameMatch name fname fuel idx ↔ cString (name.toList.drop idx) = (str.drop idx).take fuel := by
  induction fuel generalizing idx with
  | zero => omega
  | succ fuel ih =>
    rw [nameMatch, toList_drop name (by omega), hn.bytes idx hi, cString_cons]
    by_cases hend : idx = str.length
    · -- the NUL of the name
      subst hend
      rw [List.getD_eq_default _ _ (Nat.le_refl _), List.drop_length, List.take_nil]
      by_cases hb : name.getD str.length = 0
      · simp [hb]
      · simp [hb]
    · have hlt : idx < str.length := by omega
      have hc : str[idx] ≠ 0 := fun h => hn.noNul (h ▸ List.getElem_mem hlt)
      rw [List.getD_eq_getElem _ _ hlt, List.drop_eq_getElem_cons hlt, List.take_succ_cons]
      by_cases hb : name.getD idx = str[idx]
      · rw [if_pos hb, hb, if_neg hc, List.cons_inj_right]
        by_cases hlast : idx = 31
        · obtain rfl : fuel = 0 := by omega
          subst hlast
          rw [if_pos (.inr rfl), List.drop_eq_nil_of_le (by simp), List.take_zero]
          exact iff_of_true rfl rfl
        · rw [if_neg (not_or.mpr ⟨hc, hlast⟩)]
          exact ih (idx + 1) (by omega) (by omega) (by omega)
      · rw [if_neg hb]
        split
        · simp
        · simp [hb]

/-- A slot is taken for the name if it holds its first 32 characters. -/
theorem nameMatch_entryName (fs : FileSys) (hn : IsName fname str) (i : Nat) :
    nameMatch (fs.dentry i).name fname 32 0 ↔ fs.entryName i = str.take 32 := by
  have h := nameMatch_iff (fs.dentry i).name hn 32 0 (by decide) rfl (Nat.zero_le _)
  rw [List.drop_zero, List.drop_zero] at h
  exact h

/-- **What `read_dentry_by_name` finds.** -/
theorem readDentryByName_eq (fs : FileSys) (hn : IsName fname str) :
    readDentryByName fs fname = (fs.firstNamed 64 (str.take 32)).map fs.dentry := by
  unfold readDentryByName FileSys.firstNamed
  induction List.range 64 with
  | nil => rfl
  | cons i l ih =>
    have hm := nameMatch_entryName fs hn i
    rw [List.findSome?_cons, List.find?_cons]
    by_cases h : fs.entryName i = str.take 32
    · rw [if_pos (hm.mpr h)]
      simp [h]
    · rw [if_neg (mt hm.mp h)]
      simpa [h] using ih

end Compare

section Exact

variable {fs : FileSys} {fname : Nat → UInt8} {str : List UInt8}

theorem firstNamed_eq_none_iff {n : Nat} :
    fs.firstNamed n str = none ↔ ∀ i < n, fs.entryName i ≠ str := by
  simp [FileSys.firstNamed]

/-- More slots matter only if none of the first ones has the name. -/
theorem firstNamed_mono {n m : Nat} (hm : n ≤ m) (h : ∃ i < n, fs.entryName i = str) :
    fs.firstNamed m str = fs.firstNamed n str := by
  obtain ⟨k, rfl⟩ := Nat.exists_eq_add_of_le hm
  have hsome : (fs.firstNamed n str).isSome := by
    rw [Option.isSome_iff_ne_none, ne_eq, firstNamed_eq_none_iff]
    push Not
    exact h
  unfold FileSys.firstNamed at hsome ⊢
  rw [List.range_add, List.find?_append, Option.or_of_isSome hsome]

theorem length_entryName_le (fs : FileSys) (i : Nat) : (fs.entryName i).length ≤ 32 := by
  have h : (fs.entryName i).length ≤ (fs.dentry i).name.toList.length :=
    (List.takeWhile_sublist _).length_le
  simpa using h

/-- **A lookup is exact** exactly if a name of up to 32 characters that is in one of the 64 slots
is also in an entry, and the first 32 characters of a longer name are in no slot. -/
theorem lookupExact_iff (hnd : fs.numdentries ≤ 63) (hn : IsName fname str) :
    LookupExact fs fname str ↔
      (str.length ≤ 32 → ∀ i < 64, fs.numdentries ≤ i → fs.entryName i = str →
        ∃ j < fs.numdentries, fs.entryName j = str) ∧
      (32 < str.length → ∀ i < 64, fs.entryName i ≠ str.take 32) := by
  have hlong : 32 < str.length → ∀ i, fs.entryName i ≠ str := by
    intro hl i h
    have hle := length_entryName_le fs i
    rw [h] at hle
    omega
  unfold LookupExact
  rw [readDentryByName_eq fs hn]
  constructor
  · intro h
    constructor
    · intro hl i hi _ hname
      by_contra hno
      push Not at hno
      rw [firstNamed_eq_none_iff.mpr hno, List.take_of_length_le hl, Option.map_none,
        Option.map_eq_none_iff, firstNamed_eq_none_iff] at h
      exact h i hi hname
    · intro hl
      rw [firstNamed_eq_none_iff.mpr fun i _ => hlong hl i, Option.map_none, Option.map_eq_none_iff,
        firstNamed_eq_none_iff] at h
      exact h
  · rintro ⟨hshort, hcut⟩
    by_cases hl : str.length ≤ 32
    · rw [List.take_of_length_le hl]
      by_cases hin : ∃ j < fs.numdentries, fs.entryName j = str
      · rw [firstNamed_mono (by omega) hin]
      · have hout : ∀ i < 64, fs.entryName i ≠ str := by
          intro i hi hname
          by_cases hge : fs.numdentries ≤ i
          · exact hin (hshort hl i hi hge hname)
          · exact hin ⟨i, by omega, hname⟩
        rw [firstNamed_eq_none_iff.mpr hout, firstNamed_eq_none_iff.mpr fun i hi => hout i (by omega)]
    · rw [firstNamed_eq_none_iff.mpr (hcut (by omega)),
        firstNamed_eq_none_iff.mpr fun i _ => hlong (by omega) i]

end Exact

theorem isName_cstr {str : List UInt8} (h : 0 ∉ str) : IsName (cstr str) str := ⟨h, fun _ _ => rfl⟩

theorem lookupExact_sample : (filesysInit sampleImage).numdentries ≤ 63 ∧
    LookupExact (filesysInit sampleImage) shellName (lit ['s', 'h', 'e', 'l', 'l']) := by
  have hnd : (filesysInit sampleImage).numdentries ≤ 63 := by decide +kernel
  refine ⟨hnd, (lookupExact_iff hnd (isName_cstr (by decide))).mpr ⟨fun _ => ?_, fun h => ?_⟩⟩
  · decide +kernel
  · exact absurd h (by decide)

/-- The empty name is found in a slot that is not in use. -/
theorem empty_name_found : (filesysInit sampleImage).numdentries ≤ 63 ∧
    (∀ j < (filesysInit sampleImage).numdentries, (filesysInit sampleImage).entryName j ≠ []) ∧
    (readDentryByName (filesysInit sampleImage) (cstr [])).isSome ∧
    ¬ LookupExact (filesysInit sampleImage) (cstr []) [] := by
  have hno : ∀ j < (filesysInit sampleImage).numdentries,
      (filesysInit sampleImage).entryName j ≠ [] := by decide +kernel
  have hsome : (readDentryByName (filesysInit sampleImage) (cstr [])).isSome := by decide +kernel
  refine ⟨by decide +kernel, hno, hsome, fun h => ?_⟩
  rw [LookupExact, firstNamed_eq_none_iff.mpr hno] at h
  rw [h] at hsome
  cases hsome

end Mp3
