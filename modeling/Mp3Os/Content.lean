import Mp3Os.Files

/-!
# The contents of a file

`FileSys.fileByte` is byte `i` of the file of an inode: the inode has the numbers of its data
blocks, and block `i / 4096` of the file holds the byte. `FileSys.fileLength` is the length in the
inode, and `FileSys.entryOf` the entry point of a program. All of them are functions of the disk.
-/

namespace Mp3

namespace FileSys

variable (fs : FileSys)

/-- The length of the file of an inode. -/
def fileLength (inode : Nat) : Nat := le32 fs.byte (4096 * (inode + 1))

/-- Byte `i` of the file of an inode. -/
def fileByte (inode i : Nat) : UInt8 :=
  let dataBlockNum := le32 fs.byte (4096 * (inode + 1) + 4 + 4 * (i / 4096))
  fs.byte (4096 * (fs.numinodes + 1) + 4096 * dataBlockNum + i % 4096)

/-- The inode of the file with this name. -/
def inodeOf (fname : Nat → UInt8) : Option Nat := (readDentryByName fs fname).map Dentry.inodeNum

/-- Bytes 24 to 27 of the file with this name, when it has them: the entry point of a program. -/
def entryOf (fname : Nat → UInt8) : Option UInt32 :=
  (fs.inodeOf fname).bind fun inode =>
    if 28 ≤ fs.fileLength inode then some (UInt32.ofNat (le32 (fs.fileByte inode) 24)) else none

end FileSys

section Disk

variable {fs fs' : FileSys}

theorem numinodes_of_disk (h : fs'.disk = fs.disk) : fs'.numinodes = fs.numinodes := by
  have hd := congrArg FileSys.numinodes h
  exact hd

theorem fileLength_of_disk (h : fs'.disk = fs.disk) : fs'.fileLength = fs.fileLength := by
  funext inode
  have hd := congrArg (fun g : FileSys => g.fileLength inode) h
  exact hd

theorem fileByte_of_disk (h : fs'.disk = fs.disk) : fs'.fileByte = fs.fileByte := by
  funext inode i
  have hd := congrArg (fun g : FileSys => g.fileByte inode i) h
  exact hd

theorem inodeOf_of_disk (h : fs'.disk = fs.disk) : fs'.inodeOf = fs.inodeOf := by
  funext f
  have hd := congrArg (fun g : FileSys => g.inodeOf f) h
  exact hd

theorem entryOf_of_disk (h : fs'.disk = fs.disk) : fs'.entryOf = fs.entryOf := by
  funext f
  have hd := congrArg (fun g : FileSys => g.entryOf f) h
  exact hd

end Disk

/-! ## The entry point -/

section Entry

variable {fs : FileSys} {inode : Nat} {fname buf : Nat → UInt8}

/-- The file of a name with an entry point. -/
theorem entryOf_eq (h : fs.inodeOf fname = some inode) (hl : 28 ≤ fs.fileLength inode) :
    fs.entryOf fname = some (UInt32.ofNat (le32 (fs.fileByte inode) 24)) := by
  simp [FileSys.entryOf, h, hl]

theorem fileLength_of_entryOf (h : fs.inodeOf fname = some inode)
    (he : (fs.entryOf fname).isSome) : 28 ≤ fs.fileLength inode := by
  by_contra hl
  simp [FileSys.entryOf, h, hl] at he

/-- The entry point is in the header. -/
theorem le32_header {inode : Nat} (h : ∀ i < 28, buf i = fs.fileByte inode i) :
    le32 buf 24 = le32 (fs.fileByte inode) 24 := by
  simp only [le32, h 24 (by decide), h 25 (by decide), h 26 (by decide), h 27 (by decide)]

end Entry

end Mp3
