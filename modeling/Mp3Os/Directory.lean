import Mp3Os.System

/-!
# Directory listings

A process lists the directory by `file_open(".")` and `dir_read` until that returns 0
(`listing`). `Enumerates` is what this is for: whatever reads were made before, a listing
delivers the names of all entries in order, and the next listing delivers them again.

The cursor `curfile` starts at 1, is never set back by an open, and the call that reads the last
entry returns 0. So a listing that starts at `curfile < numdentries` delivers fewer than
`numdentries - curfile` names (`listing_length`), and no image is enumerated
(`not_enumerates`).
-/

namespace Mp3

/-- What one call of `dir_read` finds: its stack, the caller's buffer and the byte count. -/
structure DirCall where
  stack : Nat → UInt8
  buf : Nat → UInt8
  nbytes : Int

/-- The buffer has room for a whole name. -/
def DirCall.Fits (c : DirCall) : Prop := 32 ≤ c.nbytes ∧ c.nbytes < 2147483648

/-- The name of the directory. -/
def dotName : Nat → UInt8 := cstr (lit ['.'])

namespace FileSys

variable (fs : FileSys)

/-- `dir_read`. -/
def dirCall (c : DirCall) : Int × (Nat → UInt8) × FileSys := dirRead fs c.stack c.buf c.nbytes

/-- The file system after some calls of `dir_read`. -/
def afterCalls (cs : List DirCall) : FileSys := cs.foldl (fun fs c => (fs.dirCall c).2.2) fs

/-- `dir_read` until it returns 0: the bytes that the calls with a positive count delivered.
`none` when the calls given are not enough. -/
def listing : FileSys → List DirCall → Option (List (List UInt8) × FileSys)
  | _, [] => none
  | fs, c :: cs =>
    let r := fs.dirCall c
    if r.1 = 0 then some ([], r.2.2)
    else
      (listing r.2.2 cs).map fun (names, fs') =>
        (if 0 < r.1 then (List.range r.1.toNat).map r.2.1 :: names else names, fs')

/-- The name of an entry, up to its NUL. -/
def entryName (i : Nat) : List UInt8 := (fs.dentry i).name.toList.takeWhile (· ≠ 0)

/-- A process that opens the directory and reads it to the end gets `names`. -/
def Lists (calls : Nat → DirCall) (names : List (List UInt8)) (fs' : FileSys) : Prop :=
  ∃ k, listing (fs.opened dotName) ((List.range k).map calls) = some (names, fs')

end FileSys

open FileSys

/-- What directory reads are for, on an image: after any earlier reads, a listing delivers every
name once and in order, and so does the next. -/
def Enumerates (image : Nat → UInt8) : Prop :=
  let fs := filesysInit image
  let names := (List.range fs.numdentries).map fs.entryName
  ∀ (earlier : List DirCall) (calls₁ calls₂ : Nat → DirCall),
    (∀ i, (calls₁ i).Fits) → (∀ i, (calls₂ i).Fits) →
    ∃ fs₁ fs₂, (fs.afterCalls earlier).Lists calls₁ names fs₁ ∧ fs₁.Lists calls₂ names fs₂

/-! ## What a call and a listing deliver -/

section Lemmas

variable {fs fs' : FileSys} {c : DirCall} {cs : List DirCall} {names : List (List UInt8)}

/-- The last entry: the call returns 0 and the cursor starts again. -/
theorem dirCall_last (h : u32 (fs.curfile + 1) = fs.numdentries) :
    (fs.dirCall c).1 = 0 ∧ (fs.dirCall c).2.2 = { fs with curfile := 0 } := by
  simp [dirCall, dirRead, h]

/-- Any other entry: the call returns what the lookup returns, and the cursor moves on. -/
theorem dirCall_next (h : u32 (fs.curfile + 1) ≠ fs.numdentries) :
    (fs.dirCall c).1 = (readDentryByIndex fs fs.curfile).1 ∧
      (fs.dirCall c).2.2 = { fs with curfile := u32 (fs.curfile + 1) } := by
  simp [dirCall, dirRead, h]

theorem readDentryByIndex_nonneg (fs : FileSys) {i : Nat} (h : i < 64) :
    0 ≤ (readDentryByIndex fs i).1 := by
  unfold readDentryByIndex
  rw [if_neg (by omega)]
  simp

theorem listing_cons (h : listing fs (c :: cs) = some (names, fs')) :
    ((fs.dirCall c).1 = 0 ∧ names = []) ∨
    ((fs.dirCall c).1 ≠ 0 ∧ ∃ ns, listing (fs.dirCall c).2.2 cs = some (ns, fs') ∧
      names = if 0 < (fs.dirCall c).1 then
        (List.range (fs.dirCall c).1.toNat).map (fs.dirCall c).2.1 :: ns else ns) := by
  rw [listing] at h
  by_cases hr : (fs.dirCall c).1 = 0
  · simp only [hr, ↓reduceIte, Option.some.injEq, Prod.mk.injEq] at h
    exact .inl ⟨hr, h.1.symm⟩
  · simp only [hr, ↓reduceIte, Option.map_eq_some_iff, Prod.mk.injEq, Prod.exists] at h
    obtain ⟨ns, fs'', hl, hn, rfl⟩ := h
    exact .inr ⟨hr, ns, hl, hn.symm⟩

/-- **A listing that starts before the last entry misses that entry.** -/
theorem listing_length (hc : fs.curfile < fs.numdentries) (hn : fs.numdentries < 4294967296)
    (h : listing fs cs = some (names, fs')) : names.length + fs.curfile < fs.numdentries := by
  induction cs generalizing fs names with
  | nil => cases h
  | cons c cs ih =>
    rcases listing_cons h with ⟨-, rfl⟩ | ⟨hr, ns, hl, rfl⟩
    · simpa using hc
    · have hu : u32 (fs.curfile + 1) = fs.curfile + 1 := by unfold u32; omega
      have hne : u32 (fs.curfile + 1) ≠ fs.numdentries := fun he => hr (dirCall_last he).1
      obtain ⟨-, hs⟩ := dirCall_next (c := c) hne
      rw [hs] at hl
      have := ih (by simp only [hu]; omega) (by exact hn) hl
      simp only [hu] at this
      split
      · rw [List.length_cons]; omega
      · omega

/-- A listing in which entry `curfile` is neither the last nor out of the table: it delivers
nothing exactly if the name of that entry is empty. -/
theorem listing_eq_nil (hi : fs.curfile < 64) (hne : u32 (fs.curfile + 1) ≠ fs.numdentries)
    (h : listing fs cs = some (names, fs')) :
    names = [] ↔ (readDentryByIndex fs fs.curfile).1 = 0 := by
  have h0 := readDentryByIndex_nonneg fs hi
  cases cs with
  | nil => cases h
  | cons c cs =>
    obtain ⟨hr, -⟩ := dirCall_next (c := c) hne
    rcases listing_cons h with ⟨hz, rfl⟩ | ⟨hz, ns, -, rfl⟩
    · simp [← hr, hz]
    · rw [hr] at hz
      rw [hr, if_pos (by omega)]
      simp [hz]

end Lemmas

/-! ## No image is enumerated -/

section Never

variable {image : Nat → UInt8}

/-- A call with a buffer of 32 bytes. -/
def lsCall : DirCall := ⟨fun _ => 0, fun _ => 0, 32⟩

theorem lsCall_fits : lsCall.Fits := by simp [DirCall.Fits, lsCall]

/-- An enumerated image gives every listing, after any earlier calls, one name per entry. -/
theorem Enumerates.length (h : Enumerates image) (earlier : List DirCall) :
    ∃ cs names fs', listing (((filesysInit image).afterCalls earlier).opened dotName) cs =
      some (names, fs') ∧ names.length = (filesysInit image).numdentries := by
  obtain ⟨fs₁, _, ⟨k, hk⟩, -⟩ :=
    h earlier (fun _ => lsCall) (fun _ => lsCall) (fun _ => lsCall_fits) (fun _ => lsCall_fits)
  exact ⟨_, _, _, hk, by simp⟩

/-- With two entries or more, the first listing after boot starts at entry 1. -/
theorem not_enumerates_of_two_le (h : 2 ≤ (filesysInit image).numdentries) :
    ¬ Enumerates image := by
  intro he
  obtain ⟨cs, names, fs', hl, hn⟩ := he.length []
  obtain ⟨d, hd⟩ := opened_eq (filesysInit image) dotName
  have hlt : (filesysInit image).numdentries < 4294967296 := le32_lt image 0
  rw [FileSys.afterCalls, List.foldl_nil, hd] at hl
  have hs : (filesysInit image).curfile = 1 := rfl
  have := listing_length (by exact h) (by exact hlt) hl
  simp only at this
  omega

/-- One entry, and the cursor behind it: a listing of one name stops at entry 2. -/
theorem listing_stops_at_two (fs : FileSys) {fs' : FileSys} {cs : List DirCall}
    {names : List (List UInt8)} (hn : fs.numdentries = 1) (hc : fs.curfile = 1)
    (h : listing fs cs = some (names, fs'))
    (hlen : names.length = 1) : (readDentryByIndex fs 2).1 = 0 := by
  have hne : u32 (fs.curfile + 1) ≠ fs.numdentries := by rw [hc, hn]; decide
  cases cs with
  | nil => cases h
  | cons c cs =>
    obtain ⟨hr, hs⟩ := dirCall_next (c := c) hne
    have h0 := readDentryByIndex_nonneg fs (i := fs.curfile) (by omega)
    rcases listing_cons h with ⟨-, rfl⟩ | ⟨hz, ns, hns, rfl⟩
    · simp at hlen
    · rw [if_pos (by omega), List.length_cons] at hlen
      rw [hs] at hns
      have hu : u32 (fs.curfile + 1) = 2 := by rw [hc]; decide
      have := (listing_eq_nil (by simp [hu]) (by simp only [hu, hn]; decide) hns).mp
        (List.length_eq_zero_iff.mp (by omega))
      simp only [hu] at this
      exact this

/-- With one entry, the cursor starts behind it: the first listing must stop at entry 2, and the
one after a single read reads that entry first. -/
theorem not_enumerates_of_eq_one (h : (filesysInit image).numdentries = 1) :
    ¬ Enumerates image := by
  intro he
  obtain ⟨cs, names, fs', hl, hn⟩ := he.length []
  obtain ⟨cs₂, names₂, fs₂, hl₂, hn₂⟩ := he.length [lsCall]
  obtain ⟨d, hd⟩ := opened_eq (filesysInit image) dotName
  obtain ⟨d₂, hd₂⟩ := opened_eq ((filesysInit image).afterCalls [lsCall]) dotName
  have hne : u32 ((1 : Nat) + 1) ≠ (filesysInit image).numdentries := by rw [h]; decide
  have hfs : (filesysInit image).afterCalls [lsCall] = { filesysInit image with curfile := 2 } :=
    (dirCall_next (c := lsCall) hne).2
  rw [FileSys.afterCalls, List.foldl_nil, hd] at hl
  rw [hd₂, hfs] at hl₂
  have hz : (readDentryByIndex (filesysInit image) 2).1 = 0 :=
    listing_stops_at_two { filesysInit image with currDentry := d } h rfl hl (by omega)
  have hnil := (listing_eq_nil (by simp) (by simp only [h]; decide) hl₂).mpr hz
  simp [hnil, h] at hn₂

/-- **No image is enumerated.** -/
theorem not_enumerates (h1 : 1 ≤ (filesysInit image).numdentries) : ¬ Enumerates image := by
  rcases Nat.lt_or_ge 1 (filesysInit image).numdentries with h | h
  · exact not_enumerates_of_two_le h
  · exact not_enumerates_of_eq_one (by omega)

end Never

/-- The small machine is such an image. -/
theorem not_enumerates_sample : (filesysInit sampleImage).numdentries = 5 ∧
    ¬ Enumerates sampleImage :=
  ⟨by decide, not_enumerates (by decide)⟩

/-- After boot the first listing of the small machine delivers three of its five names. -/
theorem listing_misses_first_and_last :
    (filesysInit sampleImage).numdentries = 5 ∧
    (readDentryByName (filesysInit sampleImage) dotName).isSome ∧
    (listing ((filesysInit sampleImage).opened dotName) (List.replicate 4 lsCall)).map Prod.fst =
      some [lit ['s', 'h', 'e', 'l', 'l'], lit ['l', 's'], lit ['r', 't', 'c']] ∧
    ¬ Enumerates sampleImage :=
  ⟨by decide, by decide +kernel, by decide +kernel, not_enumerates_of_two_le (by decide)⟩

end Mp3
