import Mp3Os.Lib.Cursor
import Mp3Os.Requests

/-!
# Reading a file from its start to its end

`file_read` with a chunk size that divides a block is a cursor on the contents of the file
(`fileRead_at`): no chunk runs over the end of a block, and a chunk of less than a block ends with
the file. So the reads of a loop like that of `cat` deliver the file, and the read at its end
leaves the descriptor as it was before the first (`fileReads_whole`).
-/

namespace Mp3

/-- The contents of the file of an inode. -/
def FileSys.contents (fs : FileSys) (inode : Nat) : List UInt8 :=
  (List.range (fs.fileLength inode)).map (fs.fileByte inode)

namespace Kernel

/-- One `file_read` for each buffer in turn: the return values and the buffers afterwards, and the
state. -/
def fileReads (fd nbytes : Int) :
    Kernel → List (Nat → UInt8) → List (Int × (Nat → UInt8)) × Kernel
  | s, [] => ([], s)
  | s, buf :: bufs =>
    let r := s.fileRead fd buf nbytes
    let rest := fileReads fd nbytes r.2.2 bufs
    ((r.1, r.2.1) :: rest.1, rest.2)

/-- The state with the position of a descriptor of the current process set. -/
def seek (s : Kernel) (fd pos : Int) : Kernel :=
  s.setFd s.curr fd { s.fdEntry s.curr fd with filePos := pos }

end Kernel

/-- The bytes that a read delivers: as many as it returns. -/
def delivered (r : Int × (Nat → UInt8)) : List UInt8 := (List.range r.1.toNat).map r.2

/-- A read wrote nothing behind what it returned. -/
def KeepsRest (r : Int × (Nat → UInt8)) (buf : Nat → UInt8) : Prop :=
  ∀ i : Nat, r.1 ≤ i → r.2 i = buf i

/-- What is stored is delivered. -/
theorem delivered_overwrite (l : List UInt8) (buf : Nat → UInt8) :
    delivered (l.length, overwrite buf 0 l) = l := by
  apply List.ext_getElem
  · simp [delivered]
  · intro i _ hi
    simp only [delivered, List.getElem_map, List.getElem_range]
    exact overwrite_of_lt (Nat.zero_le i) hi

theorem keepsRest_overwrite (l : List UInt8) (buf : Nat → UInt8) :
    KeepsRest (l.length, overwrite buf 0 l) buf := by
  intro i hi
  have hi : 0 + l.length ≤ i := by simp only at hi; omega
  exact overwrite_of_le hi

section Seek

variable {s : Kernel} {fd : Int}

theorem seek_curr (pos : Int) : (s.seek fd pos).curr = s.curr := rfl

theorem fdEntry_seek (pos : Int) : (s.seek fd pos).fdEntry s.curr fd =
    { s.fdEntry s.curr fd with filePos := pos } := Kernel.fdEntry_setFd_self ..

theorem setFd_seek (pos : Int) (e : FdEntry) :
    (s.seek fd pos).setFd s.curr fd e = s.setFd s.curr fd e := setFd_setFd ..

/-- Setting a position to what it is changes nothing. -/
theorem seek_self {pos : Int} (h : (s.fdEntry s.curr fd).filePos = pos) : s.seek fd pos = s := by
  subst h
  have hpcb : (fun b : Pcb => { b with
      fdTable := Function.update b.fdTable fd (s.fdEntry s.curr fd) }) (s.pcbs s.curr) =
      s.pcbs s.curr := by
    simp [Kernel.fdEntry]
  unfold Kernel.seek Kernel.setFd Kernel.modPcb
  dsimp only at hpcb ⊢
  rw [show { s.fdEntry s.curr fd with filePos := (s.fdEntry s.curr fd).filePos } =
    s.fdEntry s.curr fd from rfl]
  rw [hpcb, Function.update_eq_self]

end Seek

section Reads

variable {s : Kernel} {fd : Int} {inode c pos : Nat}

@[simp] theorem length_contents (fs : FileSys) (inode : Nat) :
    (fs.contents inode).length = fs.fileLength inode := by
  simp [FileSys.contents]

theorem piece_contents (fs : FileSys) (inode : Nat) :
    Cursor.piece (fs.contents inode) c pos =
      (List.range (min c (fs.fileLength inode - pos))).map fun i => fs.fileByte inode (pos + i) := by
  apply List.ext_getElem
  · rw [Cursor.length_piece, length_contents]
    simp
  · intro i _ _
    simp [Cursor.piece, FileSys.contents]

/-- A chunk at a multiple of its size does not run over the end of a block. -/
theorem chunk_in_block {i : Nat} (hd : c ∣ 4096) (hp : pos % c = 0) (hi : i < c) :
    pos % 4096 + i % 4096 < 4096 := by
  obtain ⟨m, hm⟩ := hd
  obtain ⟨q, hq⟩ : c ∣ pos % 4096 :=
    Nat.dvd_of_mod_eq_zero (by rw [Nat.mod_mod_of_dvd _ ⟨m, hm⟩, hp])
  have hlt : c * q < c * m := by
    rw [← hq, ← hm]
    omega
  have hqm : q + 1 ≤ m := Nat.lt_of_mul_lt_mul_left hlt
  have hle : c * (q + 1) ≤ c * m := Nat.mul_le_mul_left c hqm
  rw [Nat.mul_succ] at hle
  omega

/-- `read_data` of a chunk at a multiple of its size, or at the end of the file. -/
theorem readData_chunk {fs : FileSys} (hw : fs.WellFormed) (hi : inode < fs.numinodes)
    (hc : c < 4096) (hd : c ∣ 4096) (hp : pos ≤ fs.fileLength inode)
    (hpc : pos % c = 0 ∨ pos = fs.fileLength inode) (buf : Nat → UInt8) :
    readData fs inode pos buf c = (((Cursor.piece (fs.contents inode) c pos).length : Int),
      overwrite buf 0 (Cursor.piece (fs.contents inode) c pos)) := by
  have hL := hw.length inode hi
  rw [Cursor.length_piece, length_contents, piece_contents]
  by_cases he : fs.fileLength inode ≤ pos
  · rw [readData_past hi.le he (by omega), Nat.sub_eq_zero_of_le he]
    simp
  · have hcopied : copied (fs.fileLength inode - pos) c = min c (fs.fileLength inode - pos) := if_pos hc
    rw [readData_eq hi.le hL (by omega) (by omega), hcopied]
    congr 2
    apply List.map_congr_left
    intro i hi
    exact source_eq fs inode pos (chunk_in_block hd (by omega)
      (by have := List.mem_range.mp hi; omega))

variable (hw : s.fs.WellFormed) (hino : u32 (s.fdEntry s.curr fd).inodeNumber = inode)
  (hi : inode < s.fs.numinodes) (hfd : 0 ≤ fd) (h0 : 0 < c) (hc : c < 4096) (hd : c ∣ 4096)

include hw hino hi hfd h0 hc hd

/-- **`file_read` is a read of a cursor** on the contents of the file. -/
theorem fileRead_at (hp : pos ≤ s.fs.fileLength inode)
    (hpc : pos % c = 0 ∨ pos = s.fs.fileLength inode) (buf : Nat → UInt8) :
    (s.seek fd pos).fileRead fd buf c =
      (((Cursor.piece (s.fs.contents inode) c pos).length : Int),
        overwrite buf 0 (Cursor.piece (s.fs.contents inode) c pos),
        s.seek fd (Cursor.next (s.fs.contents inode) c pos : Nat)) := by
  have hL := hw.length _ hi
  have hpos : u32 (pos : Int) = pos := u32_natCast (by omega)
  have hcount : u32 (c : Int) = c := u32_natCast (by omega)
  have hnext : (if ((Cursor.piece (s.fs.contents inode) c pos).length : Int) ≠ 0 then
      (pos : Int) + (Cursor.piece (s.fs.contents inode) c pos).length else 0) =
      (Cursor.next (s.fs.contents inode) c pos : Nat) := by
    unfold Cursor.next
    simp only [← List.length_eq_zero_iff]
    split <;> split <;> omega
  unfold Kernel.fileRead
  rw [if_pos (by omega), seek_curr, fdEntry_seek]
  dsimp only
  rw [hpos, hcount, hino, show (s.seek fd pos).fs = s.fs from rfl,
    readData_chunk hw hi hc hd hp hpc]
  simp only [hnext, setFd_seek]
  rfl

/-- **The reads from a position on** are the reads of the cursor. -/
theorem fileReads_at (bufs : List (Nat → UInt8)) (hp : pos ≤ s.fs.fileLength inode)
    (hpc : pos % c = 0 ∨ pos = s.fs.fileLength inode)
    (hn : pos + c * bufs.length < s.fs.fileLength inode + c) :
    ((s.seek fd pos).fileReads fd c bufs).1.map delivered =
        (Cursor.reads (s.fs.contents inode) c bufs.length pos).1 ∧
      (∀ r ∈ ((s.seek fd pos).fileReads fd c bufs).1, r.1 = (delivered r).length) ∧
      List.Forall₂ KeepsRest ((s.seek fd pos).fileReads fd c bufs).1 bufs ∧
      ((s.seek fd pos).fileReads fd c bufs).2 =
        s.seek fd ((Cursor.reads (s.fs.contents inode) c bufs.length pos).2 : Nat) := by
  induction bufs generalizing pos with
  | nil => exact ⟨rfl, fun x h => absurd h List.not_mem_nil, .nil, rfl⟩
  | cons buf bufs ih =>
    rw [List.length_cons, Nat.mul_succ] at hn
    have hlt : pos < (s.fs.contents inode).length := by rw [length_contents]; omega
    have hnext := Cursor.next_of_lt h0 hlt
    rw [length_contents] at hnext
    have hmod : (pos + c) % c = 0 := by
      rw [Nat.add_mod_right]
      omega
    have hpc' : min (pos + c) (s.fs.fileLength inode) % c = 0 ∨
        min (pos + c) (s.fs.fileLength inode) = s.fs.fileLength inode := by
      by_cases hle : pos + c ≤ s.fs.fileLength inode
      · exact .inl (by rw [Nat.min_eq_left hle, hmod])
      · exact .inr (by omega)
    obtain ⟨hdel, hlen, hkeep, hend⟩ := ih (Nat.min_le_right ..) hpc' (by omega)
    simp only [Kernel.fileReads, fileRead_at hw hino hi hfd h0 hc hd hp hpc buf, Cursor.reads,
      List.length_cons, hnext]
    refine ⟨?_, ?_, .cons (keepsRest_overwrite _ _) hkeep, hend⟩
    · rw [List.map_cons, hdel, delivered_overwrite]
    · intro r hr
      cases List.mem_cons.mp hr with
      | inl h => rw [h, delivered_overwrite]
      | inr h => exact hlen r h

/-- **Sequential reading reproduces the file.** From position 0 on, as many reads as the file has
chunks return positive counts and deliver the file, each writing nothing behind its count; the
next one returns 0 and leaves the state before the first read. -/
theorem fileReads_whole (hpos : (s.fdEntry s.curr fd).filePos = 0) (bufs : List (Nat → UInt8))
    (hn : bufs.length = (s.fs.fileLength inode + c - 1) / c) (buf : Nat → UInt8) :
    (∀ r ∈ (s.fileReads fd c bufs).1, 0 < r.1) ∧
      (s.fileReads fd c bufs).1.flatMap delivered = s.fs.contents inode ∧
      List.Forall₂ KeepsRest (s.fileReads fd c bufs).1 bufs ∧
      (s.fileReads fd c bufs).2.fileRead fd buf c = (0, buf, s) := by
  have hself : s.seek fd (0 : Nat) = s := seek_self hpos
  have hceil := Cursor.reads_ceil (l := s.fs.contents inode) h0
  rw [length_contents, ← hn] at hceil
  obtain ⟨hdel, hlen, hkeep, hend⟩ := @fileReads_at s fd inode c 0 hw hino hi hfd h0 hc hd bufs
    (Nat.zero_le _) (.inl (Nat.zero_mod c)) (by omega)
  obtain ⟨hne, hflat, hlast⟩ := Cursor.reads_spec (l := s.fs.contents inode) h0 bufs.length 0
    (Nat.zero_le _) (by rw [length_contents]; omega)
  rw [hself] at hdel hlen hkeep hend
  refine ⟨fun r hr => ?_, ?_, hkeep, ?_⟩
  · have hpiece := hne (delivered r) (hdel ▸ List.mem_map_of_mem hr)
    have hcount := List.length_pos_iff.mpr hpiece
    rw [hlen r hr]
    omega
  · rw [List.flatMap_def, hdel, hflat, List.drop_zero, List.take_of_length_le]
    rw [length_contents]
    omega
  · have hat : (Cursor.reads (s.fs.contents inode) c bufs.length 0).2 = s.fs.fileLength inode := by
      rw [hlast, length_contents]
      omega
    have hpiece : Cursor.piece (s.fs.contents inode) c (s.fs.fileLength inode) = [] :=
      (Cursor.piece_eq_nil_iff h0).mpr (by rw [length_contents])
    have hback : Cursor.next (s.fs.contents inode) c (s.fs.fileLength inode) = 0 :=
      Cursor.next_of_le h0 (by rw [length_contents])
    rw [hend, hat, fileRead_at hw hino hi hfd h0 hc hd (Nat.le_refl _) (.inr rfl), hpiece, hback,
      hself, overwrite_nil]
    rfl

end Reads

/-- The shell of terminal 2 opens `frame0` as descriptor 2 and reads it byte by byte. -/
theorem fileReads_sample :
    ∃ s, kernel.run (boot sampleBoot) (sampleLaunches ++ [.openFd textName]) = some s ∧
      (s.fileReads 2 (1 : Nat) (List.replicate 4 fun _ => 0)).1.flatMap delivered =
        s.fs.contents 1 ∧ s.fs.contents 1 = lit ['t', 'e', 'x', 't'] := by
  have hv : (kernel.run (boot sampleBoot) (sampleLaunches ++ [.openFd textName])).map (fun s =>
      decide (s.fs.WellFormed ∧ u32 (s.fdEntry s.curr 2).inodeNumber = 1 ∧ 1 < s.fs.numinodes ∧
        (s.fdEntry s.curr 2).filePos = 0 ∧ s.fs.fileLength 1 = 4 ∧
        s.fs.contents 1 = lit ['t', 'e', 'x', 't'])) = some true := by decide +kernel
  obtain ⟨s, hs, hv⟩ := Option.map_eq_some_iff.mp hv
  obtain ⟨hw, hino, hi, hpos, hlen, htext⟩ := of_decide_eq_true hv
  refine ⟨s, hs, (fileReads_whole hw hino hi (by decide) (by decide) (by decide) (by decide) hpos _
    (by rw [hlen]; rfl) fun _ => 0).2.1, htext⟩

end Mp3
