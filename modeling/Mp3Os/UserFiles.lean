import Mp3Os.Allocation
import Mp3Os.Lookup
import Mp3Os.Sequential
import Mp3Os.UserCalls

/-!
# A program that reads a file

`OpenAt p fd inode pos` says that process `p` has the file of `inode` open as `fd`, at `pos`, and
that the globals of `syscall.c` name this descriptor. `sys_open` gives a process without open files
such a descriptor (`openAt_openFd`), each `sys_read` moves it as a cursor on the contents of the
file (`sysRead_cursor`), and it stays while no other process opens or closes a file
(`OpenAt.other`). A read is right in chunks that divide a block (`readData_chunk`), and in all
others if the blocks of the file follow each other (`readData_consecutive`).
-/

namespace Mp3

/-- Descriptor `fd` of `p` stands at `pos` of the file of `inode`, and the globals name it. -/
structure Kernel.OpenAt (s : Kernel) (p fd : Int) (inode pos : Nat) : Prop where
  entry : s.fdEntry p fd = ⟨0, pos, i32 inode, some .file, 2⟩
  pid : s.currPid = p
  fd : s.currFD = fd

/-- The image is well-formed and has a regular file with this name. -/
structure FileSys.HasFile (fs : FileSys) (name : List UInt8) (inode : Nat) : Prop where
  wellFormed : fs.WellFormed
  noNul : 0 ∉ name
  found : (readDentryByName fs (cstr name)).map (fun d => (d.fileType, d.inodeNum)) = some (2, inode)
  inode_lt : inode < fs.numinodes

instance (fs : FileSys) (name : List UInt8) (inode : Nat) : Decidable (fs.HasFile name inode) :=
  decidable_of_iff (fs.WellFormed ∧ 0 ∉ name ∧ (readDentryByName fs (cstr name)).map
    (fun d => (d.fileType, d.inodeNum)) = some (2, inode) ∧ inode < fs.numinodes)
    ⟨fun h => ⟨h.1, h.2.1, h.2.2.1, h.2.2.2⟩, fun h => ⟨h.1, h.2, h.3, h.4⟩⟩

section Disk

variable {fs fs' : FileSys} {name : List UInt8} {inode : Nat}

theorem wellFormed_of_disk (hd : fs'.disk = fs.disk) (h : fs.WellFormed) : fs'.WellFormed := by
  have hw : fs'.disk.WellFormed := hd ▸ (⟨h.length, h.blocks⟩ : fs.disk.WellFormed)
  exact ⟨hw.length, hw.blocks⟩

theorem contents_of_disk (hd : fs'.disk = fs.disk) : fs'.contents = fs.contents := by
  funext inode
  unfold FileSys.contents
  rw [fileLength_of_disk hd, fileByte_of_disk hd]

theorem FileSys.HasFile.of_disk (h : fs.HasFile name inode) (hd : fs'.disk = fs.disk) :
    fs'.HasFile name inode := by
  refine ⟨wellFormed_of_disk hd h.wellFormed, h.noNul, ?_, ?_⟩
  · rw [readDentryByName_of_disk hd]
    exact h.found
  · rw [numinodes_of_disk hd]
    exact h.inode_lt

/-- The entry of the file, under each pointer to its name. -/
theorem FileSys.HasFile.entry (h : fs.HasFile name inode) {f : Nat → UInt8} (hf : IsName f name) :
    ∃ d, readDentryByName fs f = some d ∧ d.fileType = 2 ∧ d.inodeNum = inode := by
  obtain ⟨d, hd, hv⟩ := Option.map_eq_some_iff.mp h.found
  obtain ⟨ht, hi⟩ := Prod.mk.inj hv
  rw [readDentryByName_eq fs (isName_cstr h.noNul), ← readDentryByName_eq fs hf] at hd
  exact ⟨d, hd, ht, hi⟩

/-- Inode numbers are words. -/
theorem FileSys.HasFile.u32_inode (h : fs.HasFile name inode) : u32 (i32 inode) = inode := by
  obtain ⟨d, hd, -, hi⟩ := h.entry (isName_cstr h.noNul)
  obtain ⟨j, -, rfl⟩ := readDentryByName_some hd
  have hlt : inode < 4294967296 := hi ▸ le32_lt fs.byte _
  unfold u32 i32
  split <;> omega

end Disk

section Open

variable {s s' : Kernel} {p fd : Int} {inode pos : Nat} {name : List UInt8} {f : Nat → UInt8}

/-- A process without open files gets descriptor 2. -/
theorem Files.CleanAt.lowest {F : Files} (hc : F.CleanAt p) : F.LowestFree p 2 :=
  ⟨Int.le_refl 2, by decide, hc 2 (by decide) (by decide), fun i h2 hi => by omega⟩

/-- **`sys_open` of a file** gives out the lowest free descriptor, at the position that was left in
it. -/
theorem openAt_openFd (hf : s.fs.HasFile name inode) (hname : IsName f name) (hne : name ≠ [])
    (hp : s.curr = p) (hl : s.files.LowestFree p fd) (hpos : (s.fdEntry p fd).filePos = pos) :
    (s.sysOpen f).1 = fd ∧ (s.sysOpen f).2.OpenAt p fd inode pos := by
  subst hp
  obtain ⟨d, hd, ht, rfl⟩ := hf.entry hname
  have h0 : f 0 ≠ 0 := by
    rw [hname.bytes 0 (Nat.zero_le _)]
    cases name with
    | nil => exact absurd rfl hne
    | cons b name => exact fun hb => hname.noNul (List.mem_cons.mpr (.inl hb.symm))
  rw [sysOpen_eq, if_neg h0, hd, freeFd_of_lowest hl]
  refine ⟨rfl, ?_, rfl, rfl⟩
  rw [fdEntry_openedAs, if_pos ⟨rfl, rfl⟩, FdEntry.opened, hpos, ht]
  rfl

theorem readTarget_openAt (h : s.OpenAt p fd inode pos) (h2 : 2 ≤ fd) (h6 : fd < 6) {buf : Nat}
    (hb : buf ≠ 0) : s.readTarget fd buf = .call (some .file) := by
  have he : s.globalEntry = ⟨0, pos, i32 inode, some .file, 2⟩ := by
    rw [Kernel.globalEntry, h.pid, h.fd, h.entry]
  have hfd := h.fd
  unfold Kernel.readTarget
  rw [if_neg (by omega), if_neg hb, if_neg (by omega), he, if_neg (by simp; omega)]

/-- A read of a file moves its position behind what `read_data` delivers, or back to the start. -/
theorem sysRead_file {buf : Nat} (ht : s.readTarget fd buf = .call (some .file)) (h2 : 2 ≤ fd)
    (hpos : (s.fdEntry s.curr fd).filePos = (pos : Nat))
    (hino : u32 (s.fdEntry s.curr fd).inodeNumber = inode) (hlt : pos < 4294967296) {c k : Nat}
    (hc : c < 4096) (stack : Nat → UInt8) {mem mem' : Nat → UInt8}
    (hr : readData s.fs inode pos mem c = ((k : Int), mem')) :
    s.sysRead fd buf stack mem c =
      some ⟨(k : Int), mem', s.seek fd ((if k = 0 then 0 else pos + k : Nat) : Int)⟩ := by
  have hcount : u32 (c : Int) = c := u32_natCast (by omega)
  have hread : s.fileRead fd mem c =
      ((k : Int), mem', s.seek fd ((if k = 0 then 0 else pos + k : Nat) : Int)) := by
    have hnext : (if (k : Int) ≠ 0 then (pos : Int) + k else 0) =
        ((if k = 0 then 0 else pos + k : Nat) : Int) := by
      split <;> split <;> omega
    unfold Kernel.fileRead
    rw [if_pos (by omega)]
    dsimp only
    rw [hpos, u32_natCast hlt, hcount, hino, hr]
    dsimp only
    rw [hnext, Kernel.seek]
  rw [Kernel.sysRead, ht]
  dsimp only [Kernel.opRead]
  rw [hread]

/-- **`sys_read` of a file** is a read of the cursor, if `read_data` delivers the piece. -/
theorem sysRead_cursor (h : s.OpenAt p fd inode pos) (hf : s.fs.HasFile name inode)
    (h2 : 2 ≤ fd) (h6 : fd < 6) (hp : s.curr = p) {c : Nat} (hc : c < 4096)
    (hle : pos ≤ s.fs.fileLength inode) {buf : Nat} (hb : buf ≠ 0) (stack : Nat → UInt8)
    {mem : Nat → UInt8} (hr : readData s.fs inode pos mem c =
      (((Cursor.piece (s.fs.contents inode) c pos).length : Int),
        overwrite mem 0 (Cursor.piece (s.fs.contents inode) c pos))) :
    ∃ s', s.sysRead fd buf stack mem c =
        some ⟨((Cursor.piece (s.fs.contents inode) c pos).length : Int),
          overwrite mem 0 (Cursor.piece (s.fs.contents inode) c pos), s'⟩ ∧
      s'.OpenAt p fd inode (Cursor.next (s.fs.contents inode) c pos) := by
  subst hp
  have hL := hf.wellFormed.length _ hf.inode_lt
  have hpos : (s.fdEntry s.curr fd).filePos = (pos : Nat) := by rw [h.entry]
  have hino : u32 (s.fdEntry s.curr fd).inodeNumber = inode := by
    rw [h.entry]
    exact hf.u32_inode
  have hnext : Cursor.next (s.fs.contents inode) c pos =
      if (Cursor.piece (s.fs.contents inode) c pos).length = 0 then 0
      else pos + (Cursor.piece (s.fs.contents inode) c pos).length := by
    unfold Cursor.next
    simp only [List.length_eq_zero_iff]
  have hread := sysRead_file (readTarget_openAt h h2 h6 hb) h2 hpos hino (by omega) hc stack hr
  rw [← hnext] at hread
  refine ⟨_, hread, ?_, h.pid, h.fd⟩
  rw [fdEntry_seek, h.entry]

/-- The blocks of the file follow each other. -/
def FileSys.Consecutive (fs : FileSys) (inode : Nat) : Prop :=
  ∀ j, 4096 * (j + 1) < fs.fileLength inode → fs.blockNum inode (j + 1) = fs.blockNum inode j + 1

theorem FileSys.Consecutive.of_disk {fs fs' : FileSys} (h : fs.Consecutive inode)
    (hd : fs'.disk = fs.disk) : fs'.Consecutive inode := by
  have hb : fs'.disk.Consecutive inode := hd ▸ (h : fs.disk.Consecutive inode)
  exact hb

/-- Then `read_data` delivers the piece at any position. -/
theorem readData_consecutive {fs : FileSys} (hw : fs.WellFormed) (hi : inode < fs.numinodes)
    (hb : fs.Consecutive inode) {c : Nat} (hc : c < 4096) (hp : pos ≤ fs.fileLength inode)
    (buf : Nat → UInt8) :
    readData fs inode pos buf c = (((Cursor.piece (fs.contents inode) c pos).length : Int),
      overwrite buf 0 (Cursor.piece (fs.contents inode) c pos)) := by
  have hL := hw.length inode hi
  rw [Cursor.length_piece, length_contents, piece_contents]
  by_cases he : fs.fileLength inode ≤ pos
  · rw [readData_past hi.le he (by omega), Nat.sub_eq_zero_of_le he]
    simp
  · have hcopied : copied (fs.fileLength inode - pos) c = min c (fs.fileLength inode - pos) :=
      if_pos hc
    rw [readData_eq hi.le hL (by omega) (by omega), hcopied]
    congr 2
    apply List.map_congr_left
    intro i hi
    have hlt := List.mem_range.mp hi
    by_cases hin : pos % 4096 + i % 4096 < 4096
    · exact source_eq fs inode pos hin
    · -- the byte is in the block behind
      have hnext := hb (pos / 4096) (by omega)
      have hdiv : (pos + i) / 4096 = pos / 4096 + 1 := by omega
      have haddr : fs.source inode pos i = 4096 * (fs.numinodes + 1) +
          4096 * fs.blockNum inode ((pos + i) / 4096) + (pos + i) % 4096 := by
        unfold FileSys.source FileSys.blockAddr
        have h0 : i / 4096 = 0 := by omega
        simp only [hdiv, hnext, h0, Nat.add_zero]
        omega
      rw [haddr]
      rfl

/-- **The others leave the descriptor**, if they open and close no files. -/
theorem Kernel.OpenAt.other (h : s.OpenAt p fd inode pos) {e : Event} (hn : s.NotBy p e)
    (hl : e.LeavesFiles) (hs : s.step e = some s') : s'.OpenAt p fd inode pos := by
  obtain ⟨hpid, hfd⟩ := leavesFiles_globals hl hs
  exact ⟨(notBy_table hn hs fd).trans h.entry, hpid.trans h.pid, hfd.trans h.fd⟩

end Open

/-! ## Calls that leave the files alone -/

section Calls

variable {s : Kernel} {p fd : Int} {inode pos : Nat}

/-- `sys_write` to the terminal returns the number of bytes. -/
theorem sysWrite_terminal {buf : Nat} (hb : buf ≠ 0) (mem : Nat → UInt8) (n : Int) :
    s.sysWrite 1 buf mem n = some (s.terminalWriteFrom mem n) := by
  unfold Kernel.sysWrite Kernel.writeTarget
  rw [if_neg (by decide), if_neg hb, if_pos rfl]

theorem terminalWriteFrom_ret (mem : Nat → UInt8) (n : Int) :
    (s.terminalWriteFrom mem n).ret = n.toNat := by
  simp [Kernel.terminalWriteFrom, Kernel.terminalWrite]

end Calls

end Mp3
