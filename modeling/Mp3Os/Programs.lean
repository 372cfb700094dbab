import Mp3Os.Requests
import Mp3Os.Phases

/-!
# The file of a program

`load` asks `read_data` for a multiple of a block from offset 0 on, so each round copies a whole
block of the file, wherever it lies (`load_image`): the image of the program is the file, rounded
up to a block, and ends in the program page.

`read_ELF` asks for 28 bytes and its caller does not look at the count. What is behind the end of
a shorter file is whatever the buffer held (`readData_header`), so the test for an executable and
the entry point depend on the file alone exactly if the file has a whole header or fails the test
with the bytes it has (`fileDecides_iff`).
-/

namespace Mp3

/-! ## The image -/

/-- The address of the memory behind the virtual address `va` of the program page. -/
def Kernel.progAddr (s : Kernel) (va : Nat) : Nat :=
  s.paging.pageDirectory 32 / 4194304 * 4194304 + (va - 0x08000000)

/-- How many bytes `load` writes for a file of a length: whole blocks, up to `MAXBYTES`. -/
def imageSize (length : Nat) : Nat := min (4096 * ((length + 4095) / 4096)) 0x3B8000

section Image

variable {s : Kernel} {fname : Nat → UInt8} {d : Dentry}

theorem copied_maxbytes (length : Nat) : copied length 0x3B8000 = imageSize length := by
  unfold copied imageSize
  rw [if_neg (by decide), Nat.min_comm, Nat.mul_comm]

/-- `read_data` as `load` calls it. -/
theorem readData_maxbytes {fs : FileSys} {inode : Nat} (hw : fs.WellFormed)
    (hi : inode < fs.numinodes) (buf : Nat → UInt8) :
    readData fs inode 0 buf 0x3B8000 = ((imageSize (fs.fileLength inode) : Int),
      overwrite buf 0 ((List.range (imageSize (fs.fileLength inode))).map fun i =>
        fs.byte (fs.source inode 0 i))) := by
  by_cases h0 : fs.fileLength inode = 0
  · rw [readData_past hi.le (by omega) (by decide), h0]
    simp [imageSize]
  · rw [readData_eq hi.le (hw.length inode hi) (by omega) (by decide), Nat.sub_zero,
      copied_maxbytes]

/-- **Program loading.** `load` writes the blocks of the file at `0x08048000` and nothing else,
whatever was there, and returns how many bytes they are. They end in the program page. -/
theorem load_image (hw : s.fs.WellFormed) (hd : readDentryByName s.fs fname = some d)
    (hi : d.inodeNum < s.fs.numinodes) :
    ∃ image : Nat → UInt8,
      (∀ i < min (s.fs.fileLength d.inodeNum) 0x3B8000, image i = s.fs.fileByte d.inodeNum i) ∧
      (∀ umem, { s with umem := umem }.load fname =
        ((imageSize (s.fs.fileLength d.inodeNum) : Int), { s.looked fname with
          umem := fun a =>
            if s.progAddr 0x08048000 ≤ a ∧
              a < s.progAddr 0x08048000 + imageSize (s.fs.fileLength d.inodeNum) then
              image (a - s.progAddr 0x08048000)
            else umem a })) ∧
      0x08048000 + imageSize (s.fs.fileLength d.inodeNum) ≤ 0x08400000 := by
  refine ⟨fun i => s.fs.byte (s.fs.source d.inodeNum 0 i), fun i hi => ?_, fun umem => ?_, ?_⟩
  · have hsrc := source_eq s.fs d.inodeNum 0 (i := i) (by omega)
    rwa [Nat.zero_add] at hsrc
  · have hopen : s.fs.opened fname = { s.fs with currDentry := d } := by
      unfold FileSys.opened
      rw [hd]
    unfold Kernel.load Kernel.fileOpen Kernel.looked
    dsimp only
    rw [hopen]
    dsimp only
    rw [readData_currDentry, readData_maxbytes hw hi]
    dsimp only
    rw [overwrite_window, overwrite_map_range]
    rfl
  · unfold imageSize
    omega

end Image

/-- On the small machine, the 40 bytes of `shell` are loaded as a block. -/
theorem load_image_sample : (boot sampleBoot).fs.WellFormed ∧
    ((boot sampleBoot).load shellName).1 = 4096 := by
  have hw : (boot sampleBoot).fs.WellFormed := by decide +kernel
  have hv : (readDentryByName (boot sampleBoot).fs shellName).map (fun d =>
      decide (d.inodeNum < (boot sampleBoot).fs.numinodes ∧
        (boot sampleBoot).fs.fileLength d.inodeNum = 40)) = some true := by decide +kernel
  obtain ⟨d, hd, hv⟩ := Option.map_eq_some_iff.mp hv
  obtain ⟨hi, hlen⟩ := of_decide_eq_true hv
  obtain ⟨image, -, hload, -⟩ := load_image hw hd hi
  refine ⟨hw, ?_⟩
  rw [hlen] at hload
  exact congrArg Prod.fst (hload (boot sampleBoot).umem)

/-! ## The header -/

/-- Byte `i` of the ELF magic number. -/
def elfMagic (i : Nat) : UInt8 := [0x7F, 0x45, 0x4C, 0x46].getD i 0

theorem isElf_iff (buf : Nat → UInt8) : Kernel.isElf buf ↔ ∀ i < 4, buf i = elfMagic i := by
  constructor
  · intro h
    simp only [Kernel.isElf, Bool.and_eq_true, decide_eq_true_eq] at h
    obtain ⟨⟨⟨h0, h1⟩, h2⟩, h3⟩ := h
    intro i hi
    match i with
    | 0 => exact h0
    | 1 => exact h1
    | 2 => exact h2
    | 3 => exact h3
  · intro h
    simp only [Kernel.isElf, Bool.and_eq_true, decide_eq_true_eq]
    exact ⟨⟨⟨h 0 (by decide), h 1 (by decide)⟩, h 2 (by decide)⟩, h 3 (by decide)⟩

/-- `execute` passed the ELF test. -/
def ExecResult.passed : ExecResult → Prop
  | .user _ => True
  | .fail _ => False

/-- The file alone decides the ELF test and the entry point: two calls that find the same file
agree on the test, whatever their header buffers held; the entry point is bytes 24 to 27 of the
file; and the file begins with the magic number. -/
structure FileDecides (s : Kernel) (fname : Nat → UInt8) (inode : Nat) (x : ExecIn) : Prop where
  branch : ∀ buf buf', (s.execute fname { x with buf := buf }).passed ↔
    (s.execute fname { x with buf := buf' }).passed
  entry : ∀ buf u, s.execute fname { x with buf := buf } = .user u →
    s.fs.entryOf fname = some u.firstInstruct
  magic : ∀ buf u, s.execute fname { x with buf := buf } = .user u →
    4 ≤ s.fs.fileLength inode ∧ ∀ i < 4, s.fs.fileByte inode i = elfMagic i

section Header

variable {s : Kernel} {fname : Nat → UInt8} {d : Dentry} {x : ExecIn} {fs : FileSys} {inode : Nat}

/-- The header that `read_ELF` leaves: the bytes of the file as far as it goes, and what was in
the buffer behind them. -/
theorem readData_header (hn : inode ≤ fs.numinodes) (buf : Nat → UInt8) (i : Nat) :
    (readData fs inode 0 buf 28).2 i =
      if i < 28 ∧ i < fs.fileLength inode then fs.fileByte inode i else buf i := by
  have hcopied : copied (fs.fileLength inode) 28 = min 28 (fs.fileLength inode) := if_pos (by decide)
  rw [readData_start hn (by decide), hcopied]
  simp only [Nat.lt_min]

/-- When `execute` gets to the ELF test. -/
theorem execute_test {pid : Int} (hd : readDentryByName s.fs fname = some d)
    (hn : d.inodeNum ≤ s.fs.numinodes) (hp : s.freePid = some pid) (x : ExecIn) :
    s.execute fname x =
      if Kernel.isElf (readData s.fs d.inodeNum 0 x.buf 28).2 then
        .user (s.started fname pid x (readData s.fs d.inodeNum 0 x.buf 28).2)
      else .fail (s.entered fname pid x) := by
  have hh : s.fs.header fname x.buf = some (readData s.fs d.inodeNum 0 x.buf 28).2 := by
    simp [FileSys.header, hd, Nat.not_lt.mpr hn]
  rw [execute_eq, hh, hp]

/-- When it does not. -/
theorem execute_no_test (hd : readDentryByName s.fs fname = some d)
    (h : s.freePid = none ∨ s.fs.numinodes < d.inodeNum) (x : ExecIn) :
    s.execute fname x = .fail (s.looked fname) := by
  rw [execute_eq]
  cases h with
  | inl hp => rw [hp]; cases s.fs.header fname x.buf <;> rfl
  | inr hn =>
    have hh : s.fs.header fname x.buf = none := by simp [FileSys.header, hd, hn]
    rw [hh]

/-- Calls that fail whatever the buffer holds are decided by the file. -/
theorem fileDecides_of_fail (h : ∀ buf, ∃ u, s.execute fname { x with buf := buf } = .fail u) :
    FileDecides s fname inode x := by
  have hno : ∀ buf u, s.execute fname { x with buf := buf } ≠ .user u := by
    intro buf u hu
    obtain ⟨v, hv⟩ := h buf
    rw [hv] at hu
    cases hu
  refine ⟨fun buf buf' => ?_, fun buf u hu => absurd hu (hno buf u),
    fun buf u hu => absurd hu (hno buf u)⟩
  obtain ⟨v, hv⟩ := h buf
  obtain ⟨v', hv'⟩ := h buf'
  rw [hv, hv']
  exact Iff.rfl

section Test

variable {pid : Int} (hd : readDentryByName s.fs fname = some d)
  (hn : d.inodeNum ≤ s.fs.numinodes) (hp : s.freePid = some pid)

include hd hn hp

/-- A wrong byte in the file fails the test. -/
theorem fileDecides_of_bad {i : Nat} (hi : i < 4) (hlt : i < s.fs.fileLength d.inodeNum)
    (hbad : s.fs.fileByte d.inodeNum i ≠ elfMagic i) : FileDecides s fname d.inodeNum x := by
  refine fileDecides_of_fail fun buf => ⟨s.entered fname pid { x with buf := buf }, ?_⟩
  rw [execute_test hd hn hp, if_neg]
  rw [isElf_iff]
  intro h
  have hb := h i hi
  rw [readData_header hn, if_pos ⟨by omega, hlt⟩] at hb
  exact hbad hb

/-- A whole header decides. -/
theorem fileDecides_of_header (hlen : 28 ≤ s.fs.fileLength d.inodeNum) :
    FileDecides s fname d.inodeNum x := by
  have hbyte : ∀ buf : Nat → UInt8, ∀ i < 28,
      (readData s.fs d.inodeNum 0 buf 28).2 i = s.fs.fileByte d.inodeNum i := by
    intro buf i hi
    rw [readData_header hn, if_pos ⟨hi, by omega⟩]
  have helf : ∀ buf : Nat → UInt8, Kernel.isElf (readData s.fs d.inodeNum 0 buf 28).2 ↔
      ∀ i < 4, s.fs.fileByte d.inodeNum i = elfMagic i := by
    intro buf
    rw [isElf_iff]
    exact forall₂_congr fun i hi => by rw [hbyte buf i (by omega)]
  have hpassed : ∀ buf : Nat → UInt8, (s.execute fname { x with buf := buf }).passed ↔
      ∀ i < 4, s.fs.fileByte d.inodeNum i = elfMagic i := by
    intro buf
    rw [execute_test hd hn hp, ← helf buf]
    split
    · rename_i h
      exact iff_of_true trivial h
    · rename_i h
      exact iff_of_false id h
  have hino : s.fs.inodeOf fname = some d.inodeNum := by simp [FileSys.inodeOf, hd]
  refine ⟨fun buf buf' => (hpassed buf).trans (hpassed buf').symm, fun buf u hu => ?_,
    fun buf u hu => ⟨by omega, (hpassed buf).mp (by rw [hu]; trivial)⟩⟩
  obtain ⟨-, buf', hhead, hfirst⟩ := execute_user_looks hu
  rw [entryOf_eq hino hlen, hfirst, header_entry hhead (entryOf_eq hino hlen)]

/-- Without one, a buffer that held the magic number passes the test with an entry point that is
not in the file. -/
theorem not_fileDecides (hlen : s.fs.fileLength d.inodeNum < 28)
    (hgood : ∀ i < 4, i < s.fs.fileLength d.inodeNum → s.fs.fileByte d.inodeNum i = elfMagic i) :
    ¬ FileDecides s fname d.inodeNum x := by
  intro h
  have helf : Kernel.isElf (readData s.fs d.inodeNum 0 elfMagic 28).2 := by
    rw [isElf_iff]
    intro i hi
    rw [readData_header hn]
    split
    · rename_i hlt
      exact hgood i hi hlt.2
    · rfl
  have hexec := execute_test hd hn hp { x with buf := elfMagic }
  rw [if_pos helf] at hexec
  have hino : s.fs.inodeOf fname = some d.inodeNum := by simp [FileSys.inodeOf, hd]
  have hle := fileLength_of_entryOf hino (by rw [h.entry _ _ hexec]; rfl)
  omega

end Test

/-- **The executable check depends on the file alone** exactly if it is not made, or the file has
a whole header, or one of the first bytes that it has is not that of the magic number. -/
theorem fileDecides_iff (hd : readDentryByName s.fs fname = some d) (x : ExecIn) :
    FileDecides s fname d.inodeNum x ↔
      s.freePid = none ∨ s.fs.numinodes < d.inodeNum ∨ 28 ≤ s.fs.fileLength d.inodeNum ∨
        ∃ i < 4, i < s.fs.fileLength d.inodeNum ∧ s.fs.fileByte d.inodeNum i ≠ elfMagic i := by
  by_cases htest : s.freePid = none ∨ s.fs.numinodes < d.inodeNum
  · have hfail : FileDecides s fname d.inodeNum x :=
      fileDecides_of_fail fun buf => ⟨_, execute_no_test hd htest _⟩
    refine iff_of_true hfail ?_
    cases htest with
    | inl hp => exact .inl hp
    | inr hn => exact .inr (.inl hn)
  · obtain ⟨hp, hn⟩ := not_or.mp htest
    obtain ⟨pid, hp⟩ := Option.ne_none_iff_exists'.mp hp
    have hn : d.inodeNum ≤ s.fs.numinodes := by omega
    constructor
    · intro h
      by_contra hno
      simp only [not_or, not_exists, not_and, not_not] at hno
      exact not_fileDecides hd hn hp (by omega) hno.2.2.2 h
    · rintro (h | h | hlen | ⟨i, hi, hlt, hbad⟩)
      · rw [hp] at h
        cases h
      · omega
      · exact fileDecides_of_header hd hn hp hlen
      · exact fileDecides_of_bad hd hn hp hi hlt hbad

end Header

theorem fileDecides_sample : ∃ d, readDentryByName (boot sampleBoot).fs shellName = some d ∧
    FileDecides (boot sampleBoot) shellName d.inodeNum sampleExec := by
  have hv : (readDentryByName (boot sampleBoot).fs shellName).map (fun d =>
      decide (28 ≤ (boot sampleBoot).fs.fileLength d.inodeNum)) = some true := by decide +kernel
  obtain ⟨d, hd, hv⟩ := Option.map_eq_some_iff.mp hv
  exact ⟨d, hd, (fileDecides_iff hd sampleExec).mpr (.inr (.inr (.inl (of_decide_eq_true hv))))⟩

/-- The small machine with an empty file `frame0`. -/
def emptyFileBoot : BootIn :=
  { sampleBoot with image := fun a => if a = 8192 then 0 else sampleImage a }

/-- The shell of terminal 2 executes an empty file. -/
theorem empty_file_not_decided :
    ∃ s, kernel.run (boot emptyFileBoot) sampleLaunches = some s ∧
      ∃ d, readDentryByName s.fs textName = some d ∧ s.fs.fileLength d.inodeNum = 0 ∧
        ¬ FileDecides s textName d.inodeNum sampleExec := by
  have hv : (kernel.run (boot emptyFileBoot) sampleLaunches).map (fun s =>
      (s.freePid, s.fs.numinodes, (readDentryByName s.fs textName).map fun d =>
        (d.inodeNum, s.fs.fileLength d.inodeNum))) = some (some 3, 2, some (1, 0)) := by
    decide +kernel
  obtain ⟨s, hs, hv⟩ := Option.map_eq_some_iff.mp hv
  simp only [Prod.mk.injEq] at hv
  obtain ⟨hp, hnum, hd⟩ := hv
  obtain ⟨d, hd, hv⟩ := Option.map_eq_some_iff.mp hd
  simp only [Prod.mk.injEq] at hv
  obtain ⟨hino, hlen⟩ := hv
  refine ⟨s, hs, d, hd, hlen, not_fileDecides hd (by omega) hp (by omega) fun i _ hi => ?_⟩
  omega

end Mp3
