import Mp3Os.Content

/-!
# What `read_data` copies

* `byteReads` and `wordReads`: the addresses that the loop of `read_data` reads, the bytes of data
  blocks and the words of the inode. `readDataLoop_reads` says that the loop stores exactly the
  bytes at `byteReads`.
* `FileSys.source`: where byte `i` of a request comes from. The block is chosen by the running
  position, but the position in it by the offset of the request, so a read that starts inside a
  block runs into whatever block lies behind it.
* `copied`: how many bytes a request gets. Only a request of less than a block ends with the file;
  the others end with a block.

`readData_eq` has all of it: the bytes at `source`, `copied` of them. From offset 0 on these are the
bytes of the file (`readData_start`), so the header that `read_ELF` sees and the image that `load`
writes are those of the file that `currDentry` names.
-/

namespace Mp3

namespace FileSys

variable (fs : FileSys)

/-- `dataBlockNums[j]` of an inode. -/
def blockNum (inode j : Nat) : Nat := le32 fs.byte (4096 * (inode + 1) + 4 + 4 * j)

/-- The address of byte `j` from the start of data block `b` on. -/
def blockAddr (b j : Nat) : Nat := 4096 * (fs.numinodes + 1) + 4096 * b + j

/-- Where `read_data` finds byte `i` of a request. -/
def source (inode offset i : Nat) : Nat :=
  fs.blockAddr (fs.blockNum inode (offset / 4096 + i / 4096)) (offset % 4096 + i % 4096)

/-- Every inode has the length of a file that fits into its blocks, and the blocks that the file
uses are in the image. -/
structure WellFormed : Prop where
  length : ∀ inode < fs.numinodes, fs.fileLength inode ≤ 1023 * 4096
  blocks : ∀ inode < fs.numinodes, ∀ j, 4096 * j < fs.fileLength inode →
    fs.blockNum inode j < fs.numblocks

theorem wellFormed_iff : fs.WellFormed ↔ ∀ inode < fs.numinodes,
    fs.fileLength inode ≤ 1023 * 4096 ∧
      ∀ j < (fs.fileLength inode + 4095) / 4096, fs.blockNum inode j < fs.numblocks := by
  constructor
  · intro h inode hi
    exact ⟨h.length inode hi, fun j hj => h.blocks inode hi j (by omega)⟩
  · intro h
    exact ⟨fun inode hi => (h inode hi).1, fun inode hi j hj => (h inode hi).2 j (by omega)⟩

instance : Decidable fs.WellFormed := decidable_of_iff _ fs.wellFormed_iff.symm

end FileSys

/-- How many bytes `read_data` copies when `left` bytes of the file are left: a request of less
than a block ends with the file, others end with a block of it. -/
def copied (left length : Nat) : Nat :=
  if length < 4096 then min length left else min length ((left + 4095) / 4096 * 4096)

theorem copied_le (left length : Nat) : copied left length ≤ (left + 4095) / 4096 * 4096 := by
  unfold copied
  split <;> omega

theorem copied_le_length (left length : Nat) : copied left length ≤ length := by
  unfold copied
  split <;> omega

/-- What the file has of the request is copied. -/
theorem copied_min (left length : Nat) : min (copied left length) left = min length left := by
  unfold copied
  split <;> omega

/-- The addresses of the bytes that the loop of `read_data` copies. -/
def byteReads (fs : FileSys) (inode offset eofLength : Nat) : Nat → Nat → Nat → List Nat
  | 0, _, _ => []
  | fuel + 1, length, eofCount =>
    if length ≠ 0 ∧ eofLength > eofCount then
      let dataBlockNum := le32 fs.byte (4096 * (inode + 1) + 4 + 4 * (eofCount / 4096))
      let currDataBlock := 4096 * (fs.numinodes + 1) + 4096 * dataBlockNum
      let currLength := currLength offset eofLength length
      let tempOffset := offset % 4096
      (List.range currLength).map (fun i => currDataBlock + tempOffset + i) ++
        byteReads fs inode offset eofLength fuel (u32 (length - currLength))
          (u32 (eofCount + currLength))
    else []

/-- The addresses of the words of the inode that the loop of `read_data` reads. -/
def wordReads (inode offset eofLength : Nat) : Nat → Nat → Nat → List Nat
  | 0, _, _ => []
  | fuel + 1, length, eofCount =>
    if length ≠ 0 ∧ eofLength > eofCount then
      let currLength := currLength offset eofLength length
      (4096 * (inode + 1) + 4 + 4 * (eofCount / 4096)) ::
        wordReads inode offset eofLength fuel (u32 (length - currLength))
          (u32 (eofCount + currLength))
    else []

/-- The addresses of the bytes that `read_data` copies. -/
def readDataBytes (fs : FileSys) (inode offset length : Nat) : List Nat :=
  if inode > fs.numinodes then []
  else byteReads fs inode offset (fs.fileLength inode) length length offset

/-- The addresses of the words of an inode that `read_data` reads. -/
def readDataWords (fs : FileSys) (inode offset length : Nat) : List Nat :=
  if inode > fs.numinodes then []
  else 4096 * (inode + 1) ::
    wordReads inode offset (fs.fileLength inode) length length offset

/-! ## The loop -/

theorem map_range_add {α : Type} (f : Nat → α) (m n : Nat) :
    (List.range (m + n)).map f = (List.range m).map f ++ (List.range n).map fun i => f (m + i) := by
  rw [List.range_add, List.map_append, List.map_map]
  rfl

section Loop

variable {fs : FileSys} {inode offset eofLength : Nat}

/-- **The loop of `read_data` stores the bytes at `byteReads`**, and counts them. -/
theorem readDataLoop_reads (fs : FileSys) (inode offset eofLength fuel length eofCount pos : Nat)
    (buf : Nat → UInt8) (he : eofCount < 4294967296) :
    readDataLoop fs inode offset eofLength fuel length eofCount pos buf =
      (u32 (eofCount + (byteReads fs inode offset eofLength fuel length eofCount).length),
        overwrite buf pos
          ((byteReads fs inode offset eofLength fuel length eofCount).map fs.byte)) := by
  have hdone : u32 ((eofCount : Int) + (0 : Nat)) = eofCount := u32_add he
  induction fuel generalizing length eofCount pos buf with
  | zero => simp only [readDataLoop, byteReads, List.length_nil, List.map_nil, overwrite_nil, hdone]
  | succ fuel ih =>
    rw [readDataLoop, byteReads]
    split
    · dsimp only
      generalize currLength offset eofLength length = k
      have hlen := u32_lt ((eofCount : Int) + (k : Int))
      rw [ih _ _ _ _ hlen (u32_add hlen), List.map_append, overwrite_append, List.map_map,
        overwrite_map_range, List.length_append]
      simp only [List.length_map, List.length_range, Function.comp_apply]
      rw [u32_add_u32, Int.natCast_add, Int.add_assoc]
    · simp only [List.length_nil, List.map_nil, overwrite_nil, hdone]

theorem byteReads_stop {length eofCount : Nat} (h : length = 0 ∨ eofLength ≤ eofCount)
    (fuel : Nat) : byteReads fs inode offset eofLength fuel length eofCount = [] := by
  cases fuel with
  | zero => rfl
  | succ fuel => rw [byteReads, if_neg (by omega)]

/-- One round. -/
theorem byteReads_succ {length eofCount : Nat} (hc : length ≠ 0 ∧ eofLength > eofCount)
    (fuel : Nat) : byteReads fs inode offset eofLength (fuel + 1) length eofCount =
      ((List.range (currLength offset eofLength length)).map fun i =>
        fs.blockAddr (fs.blockNum inode (eofCount / 4096)) (offset % 4096 + i)) ++
      byteReads fs inode offset eofLength fuel
        (u32 (length - currLength offset eofLength length))
        (u32 (eofCount + currLength offset eofLength length)) := by
  rw [byteReads, if_pos hc]
  refine congrArg₂ (· ++ ·) (List.map_congr_left ?_) rfl
  intro i _
  exact Nat.add_assoc ..

/-- A round that is the last one. -/
theorem byteReads_last {length eofCount : Nat} (hc : length ≠ 0 ∧ eofLength > eofCount)
    (he : eofCount + currLength offset eofLength length < 4294967296)
    (hlast : currLength offset eofLength length = length ∨
      eofLength ≤ eofCount + currLength offset eofLength length) (fuel : Nat) :
    byteReads fs inode offset eofLength (fuel + 1) length eofCount =
      (List.range (currLength offset eofLength length)).map fun i =>
        fs.blockAddr (fs.blockNum inode (eofCount / 4096)) (offset % 4096 + i) := by
  rw [byteReads_succ hc]
  generalize currLength offset eofLength length = k at he hlast ⊢
  rw [byteReads_stop (by unfold u32; omega), List.append_nil]

/-- While a block is asked for, or the file has what is asked for, a round copies a block or the
request. -/
theorem currLength_min {length : Nat} (hs : 4096 ≤ length ∨ length ≤ eofLength - offset)
    (ho : offset < eofLength) (he : eofLength < 4294967296) :
    currLength offset eofLength length = min length 4096 ∨ length = 0 := by
  unfold currLength u32
  split
  · omega
  · rw [if_neg (by omega)]
    omega

/-- The address of a byte of round `k`. -/
theorem source_round (fs : FileSys) (inode offset k : Nat) {i : Nat} (hi : i < 4096) :
    fs.source inode offset (4096 * k + i) =
      fs.blockAddr (fs.blockNum inode ((offset + 4096 * k) / 4096)) (offset % 4096 + i) := by
  have hdiv : (4096 * k + i) / 4096 = k := by omega
  have hmod : (4096 * k + i) % 4096 = i := by omega
  have hblock : (offset + 4096 * k) / 4096 = offset / 4096 + k := by omega
  rw [FileSys.source, hdiv, hmod, hblock]

/-- A round that copies a whole block. -/
theorem byteReads_block {length k : Nat} (hc : length ≠ 0 ∧ eofLength > offset + 4096 * k)
    (hk : currLength offset eofLength length = 4096) (hle : 4096 ≤ length)
    (hl : length < 4294967296) (hend : offset + 4096 * k + 4096 < 4294967296) (fuel : Nat) :
    byteReads fs inode offset eofLength (fuel + 1) length (offset + 4096 * k) =
      ((List.range 4096).map fun i => fs.source inode offset (4096 * k + i)) ++
        byteReads fs inode offset eofLength fuel (length - 4096) (offset + 4096 * (k + 1)) := by
  have hlen : u32 ((length : Int) - (4096 : Nat)) = length - 4096 := u32_sub hle hl
  have hcount : u32 (((offset + 4096 * k : Nat) : Int) + (4096 : Nat)) =
      offset + 4096 * (k + 1) := by
    rw [u32_add hend, Nat.mul_succ, Nat.add_assoc]
  rw [byteReads_succ hc, hk, hlen, hcount]
  refine congrArg₂ (· ++ ·) (List.map_congr_left ?_) rfl
  intro i hi
  rw [source_round fs inode offset k (List.mem_range.mp hi)]

/-- A long request takes a block off what is left. -/
theorem blocks_succ {left length : Nat} (h0 : 0 < left) (hl : 4096 < length) :
    min length ((left + 4095) / 4096 * 4096) =
      4096 + min (length - 4096) ((left - 4096 + 4095) / 4096 * 4096) := by
  omega

theorem le_blocks {left length : Nat} (h0 : 0 < left) (hl : length ≤ 4096) :
    length ≤ (left + 4095) / 4096 * 4096 := by
  omega

/-- The rounds from round `k` on, block by block. The request may end inside the last one. -/
theorem byteReads_blocks (fs : FileSys) (inode : Nat) (ho : offset < eofLength)
    (he : eofLength < 4294967296) (fuel length k : Nat) (hf : length ≤ fuel)
    (hl : length < 4294967296)
    (hend : eofLength + 4096 ≤ 4294967296 ∨ offset + 4096 * k + length < 4294967296)
    (hs : 4096 ≤ length ∨ length ≤ eofLength - offset ∨ eofLength ≤ offset + 4096 * k) :
    byteReads fs inode offset eofLength fuel length (offset + 4096 * k) =
      (List.range (min length ((eofLength - (offset + 4096 * k) + 4095) / 4096 * 4096))).map
        fun i => fs.source inode offset (4096 * k + i) := by
  induction fuel generalizing length k with
  | zero =>
    obtain rfl : length = 0 := by omega
    rw [Nat.zero_min]
    rfl
  | succ fuel ih =>
    by_cases hc : length ≠ 0 ∧ eofLength > offset + 4096 * k
    · have hcurr : currLength offset eofLength length = min length 4096 := by
        have hs : 4096 ≤ length ∨ length ≤ eofLength - offset := by omega
        have hmin := currLength_min hs ho he
        omega
      by_cases hbig : 4096 < length
      · -- there is more to come
        have hnext := ih (length - 4096) (k + 1) (by omega) (by omega) (by omega) (by omega)
        have hsplit : min length ((eofLength - (offset + 4096 * k) + 4095) / 4096 * 4096) =
            4096 + min (length - 4096)
              ((eofLength - (offset + 4096 * (k + 1)) + 4095) / 4096 * 4096) := by
          rw [Nat.mul_succ 4096 k, ← Nat.add_assoc, Nat.sub_add_eq eofLength (offset + 4096 * k)]
          exact blocks_succ (Nat.sub_pos_of_lt hc.2) hbig
        have hk : currLength offset eofLength length = 4096 := hcurr.trans (Nat.min_eq_right hbig.le)
        rw [byteReads_block hc hk hbig.le hl (by omega), hnext, hsplit, map_range_add]
        refine congrArg₂ (· ++ ·) rfl (List.map_congr_left ?_)
        intro i _
        rw [Nat.mul_succ, Nat.add_assoc]
      · -- the last round
        have hn : min length ((eofLength - (offset + 4096 * k) + 4095) / 4096 * 4096) = length :=
          Nat.min_eq_left (le_blocks (Nat.sub_pos_of_lt hc.2) (Nat.le_of_not_lt hbig))
        have hk : currLength offset eofLength length = length :=
          hcurr.trans (Nat.min_eq_left (Nat.le_of_not_lt hbig))
        rw [byteReads_last hc (by omega) (.inl hk), hk, hn]
        apply List.map_congr_left
        intro i hi
        have hi := List.mem_range.mp hi
        rw [source_round fs inode offset k (by omega)]
    · rw [byteReads_stop (by omega)]
      have hn : min length ((eofLength - (offset + 4096 * k) + 4095) / 4096 * 4096) = 0 := by omega
      rw [hn]
      rfl

/-- A request of less than a block is one round, which ends with the file. -/
theorem byteReads_short (fs : FileSys) (inode : Nat) {length : Nat} (ho : offset < eofLength)
    (he : eofLength < 4294967296) (hs : length < 4096) (hl : offset + length < 4294967296) :
    byteReads fs inode offset eofLength length length offset =
      (List.range (min length (eofLength - offset))).map (fs.source inode offset) := by
  by_cases h0 : length = 0
  · rw [byteReads_stop (.inl h0), h0, Nat.zero_min]
    rfl
  · obtain ⟨fuel, rfl⟩ : ∃ fuel, length = fuel + 1 := ⟨length - 1, by omega⟩
    have hk : currLength offset eofLength (fuel + 1) = min (fuel + 1) (eofLength - offset) := by
      unfold currLength u32
      rw [if_neg (by omega)]
      split <;> omega
    rw [byteReads_last (by omega) (by omega) (by omega), hk]
    apply List.map_congr_left
    intro i hi
    have hi := List.mem_range.mp hi
    have hround := source_round fs inode offset 0 (i := i) (by omega)
    rw [Nat.mul_zero, Nat.zero_add, Nat.add_zero] at hround
    rw [hround]

/-- **What the loop of `read_data` reads**, if its counter does not wrap around. -/
theorem byteReads_eq (fs : FileSys) (inode : Nat) {length : Nat} (ho : offset < eofLength)
    (he : eofLength < 4294967296) (hl : length < 4294967296)
    (hend : eofLength + 4096 ≤ 4294967296 ∨ offset + length < 4294967296) :
    byteReads fs inode offset eofLength length length offset =
      (List.range (copied (eofLength - offset) length)).map (fs.source inode offset) := by
  unfold copied
  split
  · rename_i hs
    exact byteReads_short fs inode ho he hs (by omega)
  · have hblocks := byteReads_blocks fs inode ho he length length 0 (Nat.le_refl _) hl (by omega)
      (by omega)
    simpa only [Nat.mul_zero, Nat.add_zero, Nat.zero_add] using hblocks

/-- The words are entries of the block list that the file uses. -/
theorem mem_wordReads {fuel length eofCount a : Nat}
    (h : a ∈ wordReads inode offset eofLength fuel length eofCount) :
    ∃ e < eofLength, a = 4096 * (inode + 1) + 4 + 4 * (e / 4096) := by
  induction fuel generalizing length eofCount with
  | zero => cases h
  | succ fuel ih =>
    rw [wordReads] at h
    split at h
    · rename_i hc
      cases List.mem_cons.mp h with
      | inl ha => exact ⟨eofCount, hc.2, ha⟩
      | inr ha => exact ih ha
    · cases h

end Loop

/-! ## The call -/

section Call

variable {fs : FileSys} {inode offset length : Nat}

/-- `read_data` stores the bytes at `readDataBytes`, and returns how many they are. -/
theorem readData_reads (hn : inode ≤ fs.numinodes) (ho : offset < 4294967296) (buf : Nat → UInt8)
    (length : Nat) : readData fs inode offset buf length =
      (if fs.fileLength inode ≤ offset then 0 else i32 (readDataBytes fs inode offset length).length,
        overwrite buf 0 ((readDataBytes fs inode offset length).map fs.byte)) := by
  have hloop := readDataLoop_reads fs inode offset (fs.fileLength inode) length length offset 0 buf ho
  unfold FileSys.fileLength at hloop
  unfold readData readDataBytes FileSys.fileLength
  rw [if_neg (show ¬ inode > fs.numinodes by omega), if_neg (show ¬ inode > fs.numinodes by omega)]
  dsimp only
  rw [hloop]
  split
  · rfl
  · refine Prod.ext ?_ rfl
    unfold i32 u32
    dsimp only
    split <;> omega

/-- A read behind the end of the file copies nothing. -/
theorem readData_past (hn : inode ≤ fs.numinodes) (he : fs.fileLength inode ≤ offset)
    (ho : offset < 4294967296) (buf : Nat → UInt8) (length : Nat) :
    readData fs inode offset buf length = (0, buf) := by
  have hreads : readDataBytes fs inode offset length = [] := by
    rw [readDataBytes, if_neg (by omega), byteReads_stop (.inr he)]
  rw [readData_reads hn ho, hreads, if_pos he, List.map_nil, overwrite_nil]

/-- The addresses that a read of a file of a possible size uses. -/
theorem readDataBytes_eq (hn : inode ≤ fs.numinodes) (hL : fs.fileLength inode ≤ 1023 * 4096)
    (ho : offset < fs.fileLength inode) (hl : length < 4294967296) :
    readDataBytes fs inode offset length =
      (List.range (copied (fs.fileLength inode - offset) length)).map (fs.source inode offset) := by
  rw [readDataBytes, if_neg (by omega), byteReads_eq fs inode ho (by omega) hl (by omega)]

/-- **`read_data` in one equation**: the bytes at `source`, `copied` of them. -/
theorem readData_eq (hn : inode ≤ fs.numinodes) (hL : fs.fileLength inode ≤ 1023 * 4096)
    (ho : offset < fs.fileLength inode) (hl : length < 4294967296) (buf : Nat → UInt8) :
    readData fs inode offset buf length =
      ((copied (fs.fileLength inode - offset) length : Int),
        overwrite buf 0 ((List.range (copied (fs.fileLength inode - offset) length)).map fun i =>
          fs.byte (fs.source inode offset i))) := by
  have hle := copied_le (fs.fileLength inode - offset) length
  rw [readData_reads hn (by omega), if_neg (by omega), readDataBytes_eq hn hL ho hl, List.map_map,
    List.length_map, List.length_range]
  refine Prod.ext ?_ rfl
  generalize copied (fs.fileLength inode - offset) length = n at hle
  unfold i32
  dsimp only
  split <;> omega

end Call

/-! ## Reads from the start -/

section Start

variable {fs : FileSys} {inode length : Nat}

/-- Byte `i` of a request is the byte of the file, unless it lies behind the block of its round. -/
theorem source_eq (fs : FileSys) (inode offset : Nat) {i : Nat}
    (h : offset % 4096 + i % 4096 < 4096) :
    fs.byte (fs.source inode offset i) = fs.fileByte inode (offset + i) := by
  have hdiv : (offset + i) / 4096 = offset / 4096 + i / 4096 := by omega
  have hmod : (offset + i) % 4096 = offset % 4096 + i % 4096 := by omega
  simp only [FileSys.fileByte, hdiv, hmod]
  rfl

/-- The addresses that a read from offset 0 uses. -/
theorem readDataBytes_start (hn : inode ≤ fs.numinodes) (hl : length < 4294967296) :
    readDataBytes fs inode 0 length =
      (List.range (copied (fs.fileLength inode) length)).map (fs.source inode 0) := by
  have hL : fs.fileLength inode < 4294967296 := le32_lt ..
  rw [readDataBytes, if_neg (by omega)]
  by_cases h0 : fs.fileLength inode = 0
  · have hnone : copied 0 length = 0 := Nat.le_zero.mp (copied_le 0 length)
    rw [byteReads_stop (.inr (by omega)), h0, hnone]
    rfl
  · rw [byteReads_eq fs inode (by omega) hL hl (by omega), Nat.sub_zero]

/-- **A read from offset 0** leaves the bytes of the file, and the buffer behind them. -/
theorem readData_start (hn : inode ≤ fs.numinodes) (hl : length < 4294967296) (buf : Nat → UInt8)
    (i : Nat) : (readData fs inode 0 buf length).2 i =
      if i < copied (fs.fileLength inode) length then fs.fileByte inode i else buf i := by
  rw [readData_reads hn (by decide), readDataBytes_start hn hl, List.map_map, overwrite_map_range]
  dsimp only
  by_cases hi : i < copied (fs.fileLength inode) length
  · have hsrc := source_eq fs inode 0 (i := i) (by omega)
    rw [Nat.zero_add] at hsrc
    rw [if_pos ⟨Nat.zero_le i, by omega⟩, if_pos hi]
    exact hsrc
  · rw [if_neg (by omega), if_neg hi]

/-- `read_data` copies the file from its first byte on. -/
theorem readData_byte (hn : inode ≤ fs.numinodes) (hl : length < 4294967296) (buf : Nat → UInt8)
    {i : Nat} (hi : i < length) (he : i < fs.fileLength inode) :
    (readData fs inode 0 buf length).2 i = fs.fileByte inode i := by
  have hmin := copied_min (fs.fileLength inode) length
  rw [readData_start hn hl, if_pos (by omega)]

/-- `read_data` writes nothing behind the request. -/
theorem readData_rest (hl : length < 4294967296) (buf : Nat → UInt8) {i : Nat} (hi : length ≤ i) :
    (readData fs inode 0 buf length).2 i = buf i := by
  by_cases hn : inode > fs.numinodes
  · rw [readData, if_pos hn]
  · have hle := copied_le_length (fs.fileLength inode) length
    rw [readData_start (by omega) hl, if_neg (by omega)]

/-- What `read_ELF` reads of a file that has a whole header. -/
theorem header_entry {fname buf buf' : Nat → UInt8} {entry : UInt32}
    (h : fs.header fname buf = some buf') (he : fs.entryOf fname = some entry) :
    UInt32.ofNat (le32 buf' 24) = entry := by
  obtain ⟨d, hd, hb⟩ := Option.bind_eq_some_iff.mp h
  have hi : fs.inodeOf fname = some d.inodeNum := by simp [FileSys.inodeOf, hd]
  have hl := fileLength_of_entryOf hi (by rw [he]; rfl)
  split at hb
  · cases hb
  · rename_i hn
    cases hb
    rw [entryOf_eq hi hl] at he
    have hb : ∀ i < 28, (readData fs d.inodeNum 0 buf 28).2 i = fs.fileByte d.inodeNum i :=
      fun i hi' => readData_byte (by omega) (by decide) buf hi' (by omega)
    rw [le32_header hb]
    exact Option.some.inj he

end Start

end Mp3
