import Mp3Os.ReadData

/-!
# Requests to `read_data`

Three things a caller relies on, and exactly when `read_data` gives them:

* the count (`readsCount_iff`): a request of a block or more that passes the end of the file is
  rounded up to a block of it;
* the contents (`readsContents_iff`): a read that starts inside a block takes what is missing of
  that block from the block behind it, where the file may go on elsewhere;
* the bounds (`staysInside_iff`): the inode number `numinodes` is accepted, and the block behind
  the last one is outside of the image.
-/

namespace Mp3

/-- `f` writes the first `n` bytes of its buffer, whatever they were, and no others. -/
def WritesExactly (f : (Nat → UInt8) → Nat → UInt8) (n : Nat) : Prop :=
  (∀ buf buf' i, i < n → f buf i = f buf' i) ∧ ∀ buf i, n ≤ i → f buf i = buf i

/-- Storing a list writes its length. -/
theorem writesExactly_overwrite (l : List UInt8) :
    WritesExactly (fun buf => overwrite buf 0 l) l.length := by
  constructor
  · intro buf buf' i hi
    have hi' : i - 0 < l.length := by omega
    exact (overwrite_of_lt (Nat.zero_le i) hi').trans (overwrite_of_lt (Nat.zero_le i) hi').symm
  · intro buf i hi
    exact overwrite_of_le (by omega)

/-- How much is written is one number. -/
theorem WritesExactly.unique {f : (Nat → UInt8) → Nat → UInt8} {m n : Nat}
    (hm : WritesExactly f m) (hn : WritesExactly f n) : m = n := by
  have hle : ∀ {m n : Nat}, WritesExactly f m → WritesExactly f n → m ≤ n := by
    intro m n hm hn
    by_contra hlt
    have h := hm.1 (fun _ => 0) (fun _ => 1) n (by omega)
    rw [hn.2 _ n (Nat.le_refl n), hn.2 _ n (Nat.le_refl n)] at h
    exact absurd h (by decide)
  exact Nat.le_antisymm (hle hm hn) (hle hn hm)

/-- A file of 8195 bytes whose blocks do not follow each other: 0, 2 and 1. -/
def scattered : FileSys := FileSys.filesysInit (memory
  [(4, [1]), (8, [3]), (4096, [3, 0x20]), (4104, [2]), (4108, [1]),
   (12288, lit ['x']), (16384, lit ['y'])])

theorem scattered_inode : scattered.numinodes = 1 ∧ scattered.fileLength 0 = 8195 := by
  decide +kernel

theorem scattered_wellFormed : scattered.WellFormed := by decide +kernel

/-! ## The count -/

/-- The count that a request should get: it ends with the file. -/
def FileSys.available (fs : FileSys) (inode offset length : Nat) : Nat :=
  if offset < fs.fileLength inode then min length (fs.fileLength inode - offset) else 0

/-- `read_data` returns and writes what the file has of the request. -/
def ReadsCount (fs : FileSys) (inode offset length : Nat) : Prop :=
  (∀ buf, (readData fs inode offset buf length).1 = fs.available inode offset length) ∧
    WritesExactly (fun buf => (readData fs inode offset buf length).2)
      (fs.available inode offset length)

section Requests

variable {fs : FileSys} {inode offset length : Nat}

/-- `read_data` returns and writes `copied` bytes. -/
theorem readData_writes (hn : inode ≤ fs.numinodes) (hL : fs.fileLength inode ≤ 1023 * 4096)
    (ho : offset < fs.fileLength inode) (hl : length < 4294967296) :
    WritesExactly (fun buf => (readData fs inode offset buf length).2)
      (copied (fs.fileLength inode - offset) length) := by
  have h := writesExactly_overwrite ((List.range (copied (fs.fileLength inode - offset) length)).map
    fun i => fs.byte (fs.source inode offset i))
  rw [List.length_map, List.length_range] at h
  simpa only [readData_eq hn hL ho hl] using h

/-- What is copied is what the file has, except for the rest of a last block. -/
theorem copied_eq_min_iff (left length : Nat) :
    copied left length = min length left ↔
      length < 4096 ∨ length ≤ left ∨ left % 4096 = 0 := by
  unfold copied
  split <;> omega

/-- **The count of `read_data`** is right exactly if the offset is behind the file, the request is
shorter than a block or ends in the file, or the file ends with a block from the offset on. -/
theorem readsCount_iff (hw : fs.WellFormed) (hi : inode < fs.numinodes) (ho : offset < 4294967296)
    (hl : length < 4294967296) :
    ReadsCount fs inode offset length ↔
      fs.fileLength inode ≤ offset ∨ length < 4096 ∨ length ≤ fs.fileLength inode - offset ∨
        (fs.fileLength inode - offset) % 4096 = 0 := by
  have hL := hw.length inode hi
  by_cases he : fs.fileLength inode ≤ offset
  · refine iff_of_true ?_ (.inl he)
    have hpast : ∀ buf, readData fs inode offset buf length = (0, buf) :=
      fun buf => readData_past hi.le he ho buf length
    have h0 : fs.available inode offset length = 0 := if_neg (by omega)
    unfold ReadsCount
    simp only [hpast, h0]
    exact ⟨fun _ => rfl, fun _ _ _ h => absurd h (Nat.not_lt_zero _), fun _ _ _ => rfl⟩
  · have hlt : offset < fs.fileLength inode := by omega
    have hav : fs.available inode offset length = min length (fs.fileLength inode - offset) :=
      if_pos hlt
    have hwrites := readData_writes hi.le hL hlt hl
    have hcopied : ReadsCount fs inode offset length ↔
        copied (fs.fileLength inode - offset) length = fs.available inode offset length := by
      constructor
      · intro h
        exact hwrites.unique h.2
      · intro h
        refine ⟨fun buf => ?_, h ▸ hwrites⟩
        rw [readData_eq hi.le hL hlt hl, h]
    rw [hcopied, hav, copied_eq_min_iff]
    omega

theorem readsCount_scattered : scattered.WellFormed ∧ 0 < scattered.numinodes ∧
    ReadsCount scattered 0 8000 1024 := by
  have hi : 0 < scattered.numinodes := by rw [scattered_inode.1]; decide
  exact ⟨scattered_wellFormed, hi, (readsCount_iff scattered_wellFormed hi (by decide)
    (by decide)).mpr (.inr (.inl (by decide)))⟩

/-- A request for three blocks gets 12288 bytes of a file of 8195. -/
theorem not_readsCount_scattered : scattered.WellFormed ∧ 0 < scattered.numinodes ∧
    (∀ buf, (readData scattered 0 0 buf 12288).1 = 12288) ∧ ¬ ReadsCount scattered 0 0 12288 := by
  obtain ⟨hnum, hlen⟩ := scattered_inode
  have hret : ∀ buf, (readData scattered 0 0 buf 12288).1 = 12288 := by
    intro buf
    rw [readData_eq (by omega) (by omega) (by omega) (by decide), hlen]
    rfl
  refine ⟨scattered_wellFormed, by omega, hret, fun h => ?_⟩
  have hcount := h.1 fun _ => 0
  rw [hret, FileSys.available, hlen] at hcount
  exact absurd hcount (by decide)

/-! ## The contents -/

/-- What `read_data` delivers of the file is the file from the offset on. -/
def ReadsContents (fs : FileSys) (inode offset length : Nat) : Prop :=
  ∀ buf (i : Nat),
    (i : Int) < min (readData fs inode offset buf length).1 (fs.fileLength inode - offset : Nat) →
    (readData fs inode offset buf length).2 i = fs.fileByte inode (offset + i)

/-- Wherever a request that starts inside a block goes on from one block of the file to the next,
the block behind the first one begins as the next one does. `j` runs over the bytes that are taken
from there. -/
def NextAgrees (fs : FileSys) (inode offset length : Nat) : Prop :=
  ∀ k j, j < offset % 4096 →
    4096 * (k + 1) + j < offset % 4096 + min length (fs.fileLength inode - offset) →
    fs.byte (fs.blockAddr (fs.blockNum inode (offset / 4096 + k) + 1) j) =
      fs.byte (fs.blockAddr (fs.blockNum inode (offset / 4096 + k + 1)) j)

/-- Behind the block of its round, byte `i` of a request is a byte of the next block of the image,
where the file has one of its next block. -/
theorem source_spill (fs : FileSys) (inode offset : Nat) {k j i : Nat} (hj : j < offset % 4096)
    (hi : offset % 4096 + i = 4096 * (k + 1) + j) :
    fs.byte (fs.source inode offset i) =
      fs.byte (fs.blockAddr (fs.blockNum inode (offset / 4096 + k) + 1) j) ∧
    fs.fileByte inode (offset + i) =
      fs.byte (fs.blockAddr (fs.blockNum inode (offset / 4096 + k + 1)) j) := by
  have hk : i / 4096 = k := by omega
  have hpos : offset % 4096 + i % 4096 = 4096 + j := by omega
  have hdiv : (offset + i) / 4096 = offset / 4096 + k + 1 := by omega
  have hmod : (offset + i) % 4096 = j := by omega
  constructor
  · rw [FileSys.source, hk, hpos]
    unfold FileSys.blockAddr
    congr 1
    omega
  · simp only [FileSys.fileByte, hdiv, hmod]
    rfl

/-- **The contents that `read_data` delivers** are right exactly if every block that the request
runs over from inside is followed in the image by a block that agrees with the next one of the
file. -/
theorem readsContents_iff (hw : fs.WellFormed) (hi : inode < fs.numinodes)
    (ho : offset < fs.fileLength inode) (hl : length < 4294967296) :
    ReadsContents fs inode offset length ↔ NextAgrees fs inode offset length := by
  have hL := hw.length inode hi
  have hmin := copied_min (fs.fileLength inode - offset) length
  have hbyte : ReadsContents fs inode offset length ↔
      ∀ i < min length (fs.fileLength inode - offset),
        fs.byte (fs.source inode offset i) = fs.fileByte inode (offset + i) := by
    unfold ReadsContents
    simp only [readData_eq hi.le hL ho hl]
    have hget : ∀ buf i, i < min length (fs.fileLength inode - offset) →
        overwrite buf 0 ((List.range (copied (fs.fileLength inode - offset) length)).map fun i =>
          fs.byte (fs.source inode offset i)) i = fs.byte (fs.source inode offset i) := by
      intro buf i hi
      rw [overwrite_of_lt (Nat.zero_le i) (by simp; omega)]
      simp
    constructor
    · intro h i hi
      rw [← hget (fun _ => 0) i hi]
      exact h _ i (by omega)
    · intro h buf i hi
      rw [hget buf i (by omega)]
      exact h i (by omega)
  rw [hbyte]
  constructor
  · intro h k j hj hlt
    obtain ⟨i, hi⟩ : ∃ i, offset % 4096 + i = 4096 * (k + 1) + j :=
      ⟨4096 * (k + 1) + j - offset % 4096, by omega⟩
    obtain ⟨hsrc, hfile⟩ := source_spill fs inode offset hj hi
    rw [← hsrc, ← hfile]
    exact h i (by omega)
  · intro h i hlt
    by_cases hspill : offset % 4096 + i % 4096 < 4096
    · exact source_eq fs inode offset hspill
    · have hj : offset % 4096 + i % 4096 - 4096 < offset % 4096 := by omega
      have hi : offset % 4096 + i = 4096 * (i / 4096 + 1) + (offset % 4096 + i % 4096 - 4096) := by
        omega
      obtain ⟨hsrc, hfile⟩ := source_spill fs inode offset hj hi
      rw [hsrc, hfile]
      exact h _ _ hj (by omega)

theorem readsContents_scattered : scattered.WellFormed ∧ 0 < scattered.numinodes ∧
    4096 < scattered.fileLength 0 ∧ ReadsContents scattered 0 4096 4099 := by
  obtain ⟨hnum, hlen⟩ := scattered_inode
  refine ⟨scattered_wellFormed, by omega, by omega, (readsContents_iff scattered_wellFormed
    (by omega) (by omega) (by decide)).mpr fun k j hj => ?_⟩
  exact absurd hj (by omega)

/-- The last byte of a request of a block from offset 1 on is taken from block 1 of the image; the
file goes on in block 2. -/
theorem not_readsContents_scattered : scattered.WellFormed ∧ 0 < scattered.numinodes ∧
    1 < scattered.fileLength 0 ∧ ¬ ReadsContents scattered 0 1 4096 := by
  obtain ⟨hnum, hlen⟩ := scattered_inode
  refine ⟨scattered_wellFormed, by omega, by omega, fun h => ?_⟩
  have hbyte := h (fun _ => 0) 4095
  rw [readData_eq (by omega) (by omega) (by omega) (by decide), hlen] at hbyte
  dsimp only at hbyte
  rw [overwrite_of_lt (Nat.zero_le _) (by rw [List.length_map, List.length_range]; decide),
    List.getElem_map, List.getElem_range] at hbyte
  have hsrc : scattered.byte (scattered.source 0 1 (4095 - 0)) = ch 'x' := by decide +kernel
  have hfile : scattered.fileByte 0 (1 + 4095) = ch 'y' := by decide +kernel
  rw [hsrc, hfile] at hbyte
  exact absurd (hbyte (by decide)) (by decide)

/-! ## The bounds -/

/-- The address is one of a data block of the image. -/
def FileSys.InData (fs : FileSys) (a : Nat) : Prop :=
  4096 * (1 + fs.numinodes) ≤ a ∧ a < 4096 * (1 + fs.numinodes + fs.numblocks)

/-- `read_data` takes its inode from the inodes of the image, and fails on other numbers; what it
copies comes from data blocks of the image. -/
structure StaysInside (fs : FileSys) (inode offset length : Nat) : Prop where
  fails : fs.numinodes ≤ inode → ∀ buf, readData fs inode offset buf length = (-1, buf)
  words : ∀ a ∈ readDataWords fs inode offset length,
    4096 ≤ a ∧ a + 4 ≤ 4096 * (1 + fs.numinodes)
  bytes : ∀ a ∈ readDataBytes fs inode offset length, fs.InData a

/-- No round of a request leaves the last block of the image. Round `k` copies a block or what is
left of the request; a request of less than a block may end with the file. -/
def RoundsFit (fs : FileSys) (inode offset length : Nat) : Prop :=
  ∀ k, 4096 * k < min length (fs.fileLength inode - offset) →
    fs.blockNum inode (offset / 4096 + k) + 1 < fs.numblocks ∨
    offset % 4096 + min (length - 4096 * k)
      (if length < 4096 then fs.fileLength inode - offset else 4096) ≤ 4096

/-- Byte `i` of a request is copied in round `i / 4096`. -/
theorem lt_copied_iff {left i : Nat} :
    i < copied left length ↔ 4096 * (i / 4096) < min length left ∧
      i % 4096 < min (length - 4096 * (i / 4096)) (if length < 4096 then left else 4096) := by
  unfold copied
  split <;> omega

/-- The first byte of the buffer is not kept by a read that copies something. -/
theorem readData_head (hn : inode ≤ fs.numinodes) (he : offset < fs.fileLength inode)
    (hl : length ≠ 0) (hlt : length < 4294967296) :
    ∃ buf, (readData fs inode offset buf length).2 0 ≠ buf 0 := by
  have hL : fs.fileLength inode < 4294967296 := le32_lt ..
  have hk := (currLength_bounds hl he hL).1
  have hreads : 0 < (readDataBytes fs inode offset length).length := by
    obtain ⟨fuel, rfl⟩ : ∃ fuel, length = fuel + 1 := ⟨length - 1, by omega⟩
    rw [readDataBytes, if_neg (by omega), byteReads_succ ⟨hl, he⟩, List.length_append,
      List.length_map, List.length_range]
    omega
  have hwrites := (writesExactly_overwrite ((readDataBytes fs inode offset length).map fs.byte)).1
  by_contra hkeep
  push Not at hkeep
  simp only [readData_reads hn (show offset < 4294967296 by omega)] at hkeep
  have h0 := hwrites (fun _ => 0) (fun _ => 1) 0 (by simpa using hreads)
  dsimp only at h0
  rw [hkeep, hkeep] at h0
  exact absurd h0 (by decide)

/-- The inode number `numinodes` is accepted. -/
theorem readData_numinodes (ho : offset < 4294967296) (hl : length < 4294967296) :
    ∃ buf, readData fs fs.numinodes offset buf length ≠ (-1, buf) := by
  by_cases hmax : length < 4294967295
  · refine ⟨fun _ => 0, fun h => ?_⟩
    have hneg := (readData_eq_neg_one fs fs.numinodes (fun _ => 0) ho hmax).mp (by rw [h])
    omega
  · by_cases he : offset < fs.fileLength fs.numinodes
    · obtain ⟨buf, hbuf⟩ := readData_head (Nat.le_refl _) he (by omega) hl
      exact ⟨buf, fun h => hbuf (by rw [h])⟩
    · refine ⟨fun _ => 0, fun h => ?_⟩
      rw [readData_past (Nat.le_refl _) (by omega) ho] at h
      exact absurd (congrArg Prod.fst h) (by decide)

/-- The rounds of a read from a file of the image fit exactly if its addresses are in data
blocks. -/
theorem roundsFit_iff (hw : fs.WellFormed) (hi : inode < fs.numinodes) (hl : length < 4294967296) :
    (∀ a ∈ readDataBytes fs inode offset length, fs.InData a) ↔
      RoundsFit fs inode offset length := by
  by_cases he : fs.fileLength inode ≤ offset
  · refine iff_of_true ?_ fun k hk => by omega
    intro a ha
    rw [readDataBytes, if_neg (by omega), byteReads_stop (.inr he)] at ha
    cases ha
  have hlt : offset < fs.fileLength inode := by omega
  have hblock : ∀ k, 4096 * k < fs.fileLength inode - offset →
      fs.blockNum inode (offset / 4096 + k) < fs.numblocks :=
    fun k hk => hw.blocks inode hi _ (by omega)
  rw [readDataBytes_eq hi.le (hw.length inode hi) hlt hl]
  rw [List.forall_mem_map]
  simp only [List.mem_range, lt_copied_iff, and_imp]
  constructor
  · -- the last byte of round `k`
    intro h k hk
    have hchunk : 0 < min (length - 4096 * k)
        (if length < 4096 then fs.fileLength inode - offset else 4096) := by
      split <;> omega
    have hle : min (length - 4096 * k)
        (if length < 4096 then fs.fileLength inode - offset else 4096) ≤ 4096 := by
      split <;> omega
    generalize hc : min (length - 4096 * k)
      (if length < 4096 then fs.fileLength inode - offset else 4096) = c at hchunk hle ⊢
    have hdiv : (4096 * k + (c - 1)) / 4096 = k := by omega
    have hmod : (4096 * k + (c - 1)) % 4096 = c - 1 := by omega
    have hin := h (4096 * k + (c - 1)) (by rw [hdiv]; exact hk) (by rw [hdiv, hmod, hc]; omega)
    simp only [FileSys.source, FileSys.InData, FileSys.blockAddr, hdiv, hmod] at hin
    omega
  · intro h i hk hi'
    have hb := hblock (i / 4096) (by omega)
    have hfit := h (i / 4096) hk
    generalize min (length - 4096 * (i / 4096))
      (if length < 4096 then fs.fileLength inode - offset else 4096) = c at hi' hfit
    simp only [FileSys.source, FileSys.InData, FileSys.blockAddr]
    omega

/-- **`read_data` stays inside the image** exactly if the inode number is not `numinodes`, and no
round of a read from a file runs out of the last block. -/
theorem staysInside_iff (hw : fs.WellFormed) (ho : offset < 4294967296) (hl : length < 4294967296) :
    StaysInside fs inode offset length ↔
      inode ≠ fs.numinodes ∧ (inode < fs.numinodes → RoundsFit fs inode offset length) := by
  constructor
  · rintro ⟨hfails, -, hbytes⟩
    constructor
    · rintro rfl
      obtain ⟨buf, hbuf⟩ : ∃ buf, readData fs fs.numinodes offset buf length ≠ (-1, buf) :=
        readData_numinodes ho hl
      exact hbuf (hfails (Nat.le_refl _) buf)
    · intro hi
      exact (roundsFit_iff hw hi hl).mp hbytes
  · rintro ⟨hne, hfit⟩
    by_cases hi : inode < fs.numinodes
    · refine ⟨fun h => absurd hi (by omega), fun a ha => ?_, (roundsFit_iff hw hi hl).mpr (hfit hi)⟩
      have hL := hw.length inode hi
      rw [readDataWords, if_neg (by omega)] at ha
      cases List.mem_cons.mp ha with
      | inl ha => omega
      | inr ha =>
        obtain ⟨e, he, rfl⟩ := mem_wordReads ha
        omega
    · have hbad : inode > fs.numinodes := by omega
      refine ⟨fun _ buf => ?_, fun a ha => ?_, fun a ha => ?_⟩
      · rw [readData, if_pos hbad]
      · rw [readDataWords, if_pos hbad] at ha
        cases ha
      · rw [readDataBytes, if_pos hbad] at ha
        cases ha

theorem staysInside_scattered : scattered.WellFormed ∧ StaysInside scattered 0 8000 192 := by
  obtain ⟨hnum, hlen⟩ := scattered_inode
  refine ⟨scattered_wellFormed, (staysInside_iff scattered_wellFormed (by decide)
    (by decide)).mpr ⟨by omega, fun _ k hk => ?_⟩⟩
  rw [hlen] at hk ⊢
  rw [if_pos (by decide)]
  exact .inr (by omega)

/-- The inode number `numinodes` is read as an inode: from the first data block. -/
theorem not_staysInside_scattered : scattered.WellFormed ∧ scattered.numinodes ≤ 1 ∧
    (readData scattered 1 0 (fun _ => 0) 1).1 = 0 ∧ ¬ StaysInside scattered 1 0 1 := by
  have hret : (readData scattered 1 0 (fun _ => 0) 1).1 = 0 := by decide +kernel
  refine ⟨scattered_wellFormed, by rw [scattered_inode.1], hret, fun h => ?_⟩
  rw [h.fails (by rw [scattered_inode.1])] at hret
  exact absurd hret (by decide)

end Requests

end Mp3
