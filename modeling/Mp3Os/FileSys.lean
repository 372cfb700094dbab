import Mp3Os.Types

/-!
# The file system (`filesys.c`)

The image is read as the code reads it: the boot block at `start_addr`, its directory entries
from byte 64 on (64 bytes each), then the inodes and the data blocks (4096 bytes each). Nothing
about the image is assumed.

* `readDentryByName`, `readDentryByIndex`, `readData`: the three primitives.
* `dirRead`: one directory read, with the cursor `curfile` that all processes share.

A destination buffer is the memory from the pointer on, `Nat → UInt8`. Memory that the code
reads before it writes it (a local that is not initialised) is an argument.
-/

namespace Mp3

namespace FileSys

variable (fs : FileSys)

/-- The byte at `start_addr + a`; addresses wrap at `2 ^ 32`. -/
def byte (a : Nat) : UInt8 := fs.image (a % 4294967296)

/-- `filesys_init`: the counts are the first three words of the boot block. -/
def filesysInit (image : Nat → UInt8) : FileSys where
  image := image
  numdentries := le32 image 0
  numinodes := le32 image 4
  numblocks := le32 image 8
  curfile := 1
  currDentry := ⟨Buf.zero, 0, 0⟩

/-- `startdentry[index]`. -/
def dentry (index : Nat) : Dentry where
  name := fun j => fs.byte (64 + 64 * index + j)
  fileType := le32 fs.byte (64 + 64 * index + 32)
  inodeNum := le32 fs.byte (64 + 64 * index + 36)

end FileSys

/-- The inner loop of `read_dentry_by_name` from `nameIndex` on: the names agree up to a NUL, or
up to the last byte of the field. -/
def nameMatch (name : Buf 32) (fname : Nat → UInt8) : Nat → Nat → Bool
  | 0, _ => false
  | fuel + 1, nameIndex =>
    if name.getD nameIndex = fname nameIndex then
      if name.getD nameIndex = 0 ∨ nameIndex = 31 then true
      else nameMatch name fname fuel (nameIndex + 1)
    else false

/-- `read_dentry_by_name`: the first of the 64 slots whose name agrees with `fname`; `none` is
the return value -1. -/
def readDentryByName (fs : FileSys) (fname : Nat → UInt8) : Option Dentry :=
  (List.range 64).findSome? fun dentIndex =>
    if nameMatch (fs.dentry dentIndex).name fname 32 0 then some (fs.dentry dentIndex) else none

/-- What `file_open` leaves: the entry found goes to the global `currDentry`. -/
def FileSys.opened (fs : FileSys) (filename : Nat → UInt8) : FileSys :=
  match readDentryByName fs filename with
  | some d => { fs with currDentry := d }
  | none => fs

/-- `MAXFILENAMESIZE < strlen(name) ? MAXFILENAMESIZE : strlen(name)`. -/
def Dentry.nameLen (d : Dentry) : Nat := (d.name.toList.takeWhile (· ≠ 0)).length

/-- `read_dentry_by_index`: the return value, and the entry copied when it is not -1. -/
def readDentryByIndex (fs : FileSys) (index : Nat) : Int × Option Dentry :=
  if index ≥ 64 then (-1, none) else ((fs.dentry index).nameLen, some (fs.dentry index))

/-- The number of bytes one round of `read_data` copies (`currLength` of the loop): a whole block,
or what is left of the file, or of the request. -/
def currLength (offset eofLength length : Nat) : Nat :=
  if length % 4096 = 0 ∨ length > 4096 then 4096
  else if u32 (length + offset) > eofLength then u32 (eofLength - offset)
  else length

/-- The loop of `read_data`. `pos` is how far `buf` has moved. Each round shortens `length`, so
`length` rounds are enough (`readDataLoop_fuel`). -/
def readDataLoop (fs : FileSys) (inode offset eofLength : Nat) :
    Nat → Nat → Nat → Nat → (Nat → UInt8) → Nat × (Nat → UInt8)
  | 0, _, eofCount, _, buf => (eofCount, buf)
  | fuel + 1, length, eofCount, pos, buf =>
    if length ≠ 0 ∧ eofLength > eofCount then
      let dataBlockNum := le32 fs.byte (4096 * (inode + 1) + 4 + 4 * (eofCount / 4096))
      let currDataBlock := 4096 * (fs.numinodes + 1) + 4096 * dataBlockNum
      let currLength := currLength offset eofLength length
      let tempOffset := offset % 4096
      let buf' := fun i =>
        if pos ≤ i ∧ i < pos + currLength then fs.byte (currDataBlock + tempOffset + (i - pos))
        else buf i
      readDataLoop fs inode offset eofLength fuel (u32 (length - currLength))
        (u32 (eofCount + currLength)) (pos + currLength) buf'
    else (eofCount, buf)

/-- `read_data`: the return value, and `buf` afterwards. -/
def readData (fs : FileSys) (inode offset : Nat) (buf : Nat → UInt8) (length : Nat) :
    Int × (Nat → UInt8) :=
  if inode > fs.numinodes then (-1, buf)
  else
    let eofLength := le32 fs.byte (4096 * (inode + 1))
    let r := readDataLoop fs inode offset eofLength length length offset 0 buf
    if eofLength ≤ offset then (0, r.2) else (i32 (u32 (r.1 - offset)), r.2)

/-- `strncpy(dest, src, n)`. -/
def strncpy (dest src : Nat → UInt8) (n : Nat) : Nat → UInt8 := fun i =>
  if i < n then if (List.range (i + 1)).any (fun j => src j = 0) then 0 else src i else dest i

/-- The bytes of a `dentry_t` in memory; `stack` is what its reserved bytes hold. -/
def Dentry.bytes (d : Dentry) (stack : Nat → UInt8) : Nat → UInt8 := fun i =>
  if i < 32 then d.name.getD i
  else if i < 36 then UInt8.ofNat (d.fileType / 256 ^ (i - 32))
  else if i < 40 then UInt8.ofNat (d.inodeNum / 256 ^ (i - 36))
  else stack i

/-- `dir_read`: the return value, `buf` afterwards, and the moved cursor. `stack` is what the
local `dentry` held before, which a failed lookup leaves there. -/
def dirRead (fs : FileSys) (stack buf : Nat → UInt8) (nbytes : Int) :
    Int × (Nat → UInt8) × FileSys :=
  let cleared : Nat → UInt8 := fun i => if i < 32 then 0 else buf i
  let r := readDentryByIndex fs fs.curfile
  let dent : Nat → UInt8 := match r.2 with
    | some d => d.bytes stack
    | none => stack
  let fname := strncpy cleared dent (u32 nbytes)
  let curfile := u32 (fs.curfile + 1)
  if curfile = fs.numdentries then (0, fname, { fs with curfile := 0 })
  else (r.1, fname, { fs with curfile := curfile })

/-! ## What a lookup and a read return -/

section Lemmas

variable {fs : FileSys}

theorem opened_eq (fs : FileSys) (f : Nat → UInt8) :
    ∃ d, fs.opened f = { fs with currDentry := d } := by
  unfold FileSys.opened
  cases readDentryByName fs f with
  | none => exact ⟨_, rfl⟩
  | some d => exact ⟨d, rfl⟩

/-- Which entry is open does not matter to a read. -/
theorem readData_currDentry (fs : FileSys) (d : Dentry) (inode offset : Nat) (buf : Nat → UInt8)
    (length : Nat) :
    readData { fs with currDentry := d } inode offset buf length =
      readData fs inode offset buf length := by
  have hloop : ∀ eofLength fuel length eofCount pos buf,
      readDataLoop { fs with currDentry := d } inode offset eofLength fuel length eofCount pos buf =
        readDataLoop fs inode offset eofLength fuel length eofCount pos buf := by
    intro eofLength fuel
    induction fuel with
    | zero => intros; rfl
    | succ fuel ih =>
      intros
      rw [readDataLoop, readDataLoop]
      simp only [ih]
      rfl
  unfold readData
  simp only [hloop]
  rfl

/-- A round copies something, and at most what is left of the request. -/
theorem currLength_bounds {offset eofLength length : Nat} (hl : length ≠ 0)
    (ho : offset < eofLength) (he : eofLength < 4294967296) :
    0 < currLength offset eofLength length ∧ currLength offset eofLength length ≤ length := by
  unfold currLength u32
  split
  · omega
  · split <;> omega

theorem readDataLoop_succ (fs : FileSys) (inode offset fuel pos : Nat) (buf : Nat → UInt8)
    {eofLength length eofCount : Nat} (hc : length ≠ 0 ∧ eofLength > eofCount) :
    ∃ buf', readDataLoop fs inode offset eofLength (fuel + 1) length eofCount pos buf =
      readDataLoop fs inode offset eofLength fuel
        (u32 (length - currLength offset eofLength length))
        (u32 (eofCount + currLength offset eofLength length))
        (pos + currLength offset eofLength length) buf' := by
  rw [readDataLoop, if_pos hc]
  exact ⟨_, rfl⟩

/-- More rounds than `length` change nothing: the fuel of `readData` is enough. -/
theorem readDataLoop_fuel {inode offset eofLength : Nat} (ho : offset < eofLength)
    (he : eofLength < 4294967296) (k fuel length eofCount pos : Nat) (buf : Nat → UInt8)
    (hf : length ≤ fuel) (hl : length < 4294967296) :
    readDataLoop fs inode offset eofLength (fuel + k) length eofCount pos buf =
      readDataLoop fs inode offset eofLength fuel length eofCount pos buf := by
  induction fuel generalizing length eofCount pos buf with
  | zero =>
    obtain rfl : length = 0 := by omega
    cases k <;> simp [readDataLoop]
  | succ fuel ih =>
    rw [show fuel + 1 + k = fuel + k + 1 by omega, readDataLoop, readDataLoop]
    split
    · rename_i hc
      obtain ⟨hpos, hle⟩ := currLength_bounds hc.1 ho he
      exact ih _ _ _ _ (by unfold u32; omega) (u32_lt _)
    · rfl

/-- The loop of `read_data` copies at most what was requested. -/
theorem readDataLoop_fst (fs : FileSys) (inode : Nat) {offset eofLength : Nat}
    (ho : offset < eofLength) (he : eofLength < 4294967296) (fuel length eofCount pos : Nat)
    (buf : Nat → UInt8) (hc : eofCount < 4294967296) (hl : length < 4294967296) :
    ∃ n ≤ length, (readDataLoop fs inode offset eofLength fuel length eofCount pos buf).1 =
      u32 (eofCount + n) := by
  induction fuel generalizing length eofCount pos buf with
  | zero =>
    refine ⟨0, by omega, ?_⟩
    rw [readDataLoop]
    exact (u32_add (b := 0) hc).symm
  | succ fuel ih =>
    by_cases hcond : length ≠ 0 ∧ eofLength > eofCount
    · obtain ⟨hpos, hle⟩ := currLength_bounds hcond.1 ho he
      obtain ⟨buf', hr⟩ := readDataLoop_succ fs inode offset fuel pos buf hcond
      rw [hr]
      generalize currLength offset eofLength length = k at hpos hle ⊢
      have hlen : u32 ((length : Int) - (k : Int)) = length - k := u32_sub hle hl
      obtain ⟨n, hn, hfst⟩ := ih (u32 ((length : Int) - (k : Int)))
        (u32 ((eofCount : Int) + (k : Int))) (pos + k) buf' (u32_lt _) (u32_lt _)
      refine ⟨k + n, by omega, hfst.trans ?_⟩
      rw [u32_add_u32, Int.natCast_add, Int.add_assoc]
    · refine ⟨0, by omega, ?_⟩
      rw [readDataLoop, if_neg hcond]
      exact (u32_add (b := 0) hc).symm

/-- `read_data` fails only on an inode number above `numinodes`. -/
theorem readData_eq_neg_one (fs : FileSys) (inode : Nat) (buf : Nat → UInt8) {offset length : Nat}
    (ho : offset < 4294967296) (hl : length < 4294967295) :
    (readData fs inode offset buf length).1 = -1 ↔ inode > fs.numinodes := by
  unfold readData
  by_cases hi : inode > fs.numinodes
  · simp [hi]
  simp only [hi, ↓reduceIte, iff_false]
  have he := le32_lt fs.byte (4096 * (inode + 1))
  generalize le32 fs.byte (4096 * (inode + 1)) = eofLength at he ⊢
  split
  · simp
  · rename_i hlt
    obtain ⟨n, hn, hfst⟩ := readDataLoop_fst fs inode (show offset < eofLength by omega) he length
      length offset 0 buf ho (by omega)
    simp only [hfst]
    unfold i32 u32
    split <;> omega

end Lemmas

end Mp3
