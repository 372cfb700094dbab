import Mp3Os.System

/-!
# What `execute` does

`execute_eq` says it in one equation: the header of the file (`FileSys.header`) and the first
free PCB (`freePid`) decide which of the four ends is reached. All later proofs use this
equation and not the definition.

The first two failure exits change nothing; the exit for a file that is no ELF image comes after
the PCB, the terminal and the page are taken, and gives nothing back (`atomicOnFailure_iff`).
-/

namespace Mp3

/-- What `read_ELF` leaves in the buffer; `none` when it returns -1. -/
def FileSys.header (fs : FileSys) (fname buf : Nat → UInt8) : Option (Nat → UInt8) :=
  (readDentryByName fs fname).bind fun d =>
    if d.inodeNum > fs.numinodes then none else some (readData fs d.inodeNum 0 buf 28).2

namespace Kernel

variable (s : Kernel)

/-- The state after a lookup. -/
def looked (fname : Nat → UInt8) : Kernel := { s with fs := s.fs.opened fname }

/-- The state in which the ELF test is made. -/
def entered (fname : Nat → UInt8) (pid : Int) (x : ExecIn) : Kernel :=
  ((s.looked fname).modPcb pid fun b => { b with pcbInUse := 0 }).enterProcess pid x

/-- The state in which user mode is entered. -/
def started (fname : Nat → UInt8) (pid : Int) (x : ExecIn) (buf : Nat → UInt8) : Kernel :=
  let s := { s.entered fname pid x with firstInstruct := UInt32.ofNat (le32 buf 24) }
  { (s.load fun i => if i < 128 then fname i else 0).2 with tss := ⟨kernelStack pid, kernelDs⟩ }

end Kernel

section Equation

variable {s : Kernel} {fname buf : Nat → UInt8} {x : ExecIn}

/-- `read_ELF` by the header. -/
theorem readElf_eq (s : Kernel) (fname buf : Nat → UInt8) :
    ∃ error buf', s.readElf fname buf (-1) = (error, buf', s.looked fname) ∧
    (s.fs.header fname buf = if error = -1 then none else some buf') := by
  unfold Kernel.readElf Kernel.fileOpen FileSys.header FileSys.opened Kernel.looked FileSys.opened
  cases hd : readDentryByName s.fs fname with
  | none => exact ⟨-1, buf, by simp, by simp⟩
  | some d =>
    refine ⟨(readData s.fs d.inodeNum 0 buf 28).1, (readData s.fs d.inodeNum 0 buf 28).2, ?_, ?_⟩
    · simp [Kernel.fileRead, readData_currDentry, show u32 28 = 28 from rfl]
    · simp [readData_eq_neg_one s.fs d.inodeNum buf (show 0 < 4294967296 by decide)
        (show 28 < 4294967295 by decide)]

theorem getPID_none (h : s.freePid = none) : s.getPID = (-1, s) := by
  unfold Kernel.getPID; rw [h]

theorem getPID_some {pid : Int} (h : s.freePid = some pid) :
    s.getPID = (pid, s.modPcb pid fun b => { b with pcbInUse := 0 }) := by
  unfold Kernel.getPID; rw [h]

theorem freePid_mem {pid : Int} (h : s.freePid = some pid) : 0 ≤ pid ∧ pid < 6 := by
  have := List.mem_of_find?_eq_some h
  simp at this
  omega

/-- **`execute` in one equation.** -/
theorem execute_eq : s.execute fname x =
    match s.fs.header fname x.buf, s.freePid with
    | some buf, some pid =>
      if Kernel.isElf buf then .user (s.started fname pid x buf) else .fail (s.entered fname pid x)
    | _, _ => .fail (s.looked fname) := by
  obtain ⟨error, buf', he, hh⟩ := readElf_eq s fname x.buf
  unfold Kernel.execute
  simp only [he, hh]
  by_cases h1 : error = -1
  · simp [h1]
  · simp only [h1, ↓reduceIte]
    cases hp : s.freePid with
    | none =>
      rw [getPID_none (s := s.looked fname) hp]
      simp
    | some pid =>
      have hne : pid ≠ -1 := by have := freePid_mem hp; omega
      rw [getPID_some (s := s.looked fname) hp]
      simp only [hne, ↓reduceIte]
      rfl

end Equation

/-! ## A failed `execute` -/

namespace Kernel

/-- What a failed `execute` must not change. -/
structure Untouched (s s' : Kernel) : Prop where
  pcbs : s'.pcbs = s.pcbs
  terminals : s'.terminals = s.terminals
  pageDirectory : s'.paging.pageDirectory = s.paging.pageDirectory
  tss : s'.tss = s.tss

/-- `execute` is atomic on failure. -/
def AtomicOnFailure (s : Kernel) (fname : Nat → UInt8) (x : ExecIn) : Prop :=
  ∀ s', s.execute fname x = .fail s' → s.Untouched s'

end Kernel

theorem untouched_looked (s : Kernel) (fname : Nat → UInt8) : s.Untouched (s.looked fname) :=
  ⟨rfl, rfl, rfl, rfl⟩

/-- The exit of the ELF test leaves the PCB taken. -/
theorem not_untouched_entered {s : Kernel} {fname : Nat → UInt8} {x : ExecIn} {pid : Int}
    (h : s.freePid = some pid) : ¬ s.Untouched (s.entered fname pid x) := by
  intro hu
  have hfree : (s.pcbs pid).pcbInUse = -1 := by simpa using List.find?_some h
  have htaken : ((s.entered fname pid x).pcbs pid).pcbInUse = 0 := by
    simp [Kernel.entered, Kernel.enterProcess, Kernel.mapProcess, Kernel.modTerm, Kernel.modPcb]
  rw [hu.pcbs, hfree] at htaken
  cases htaken

theorem not_atomicOnFailure {s : Kernel} {fname buf : Nat → UInt8} {x : ExecIn} {pid : Int}
    (hp : s.freePid = some pid) (hb : s.fs.header fname x.buf = some buf)
    (he : ¬ Kernel.isElf buf) : ¬ s.AtomicOnFailure fname x := by
  intro ha
  have hfail : s.execute fname x = .fail (s.entered fname pid x) := by
    rw [execute_eq, hb, hp]
    simp [he]
  exact not_untouched_entered hp (ha _ hfail)

/-- **`execute` is atomic on failure exactly if the file, when it is found and a PCB is free, is
an ELF image.** -/
theorem atomicOnFailure_iff (s : Kernel) (fname : Nat → UInt8) (x : ExecIn) :
    s.AtomicOnFailure fname x ↔
      ∀ d pid, readDentryByName s.fs fname = some d → d.inodeNum ≤ s.fs.numinodes →
        s.freePid = some pid → Kernel.isElf (readData s.fs d.inodeNum 0 x.buf 28).2 := by
  have hhead : ∀ d, readDentryByName s.fs fname = some d → d.inodeNum ≤ s.fs.numinodes →
      s.fs.header fname x.buf = some (readData s.fs d.inodeNum 0 x.buf 28).2 := by
    intro d hd hi
    simp [FileSys.header, hd, Nat.not_lt.mpr hi]
  constructor
  · intro ha d pid hd hi hp
    by_contra hne
    exact not_atomicOnFailure hp (hhead d hd hi) hne ha
  · intro h s' he
    rw [execute_eq] at he
    cases hb : s.fs.header fname x.buf with
    | none => rw [hb] at he; cases he; exact untouched_looked s fname
    | some buf =>
      cases hp : s.freePid with
      | none => rw [hb, hp] at he; cases he; exact untouched_looked s fname
      | some pid =>
        obtain ⟨d, hd, hi⟩ := Option.bind_eq_some_iff.mp hb
        split at hi
        · cases hi
        · rename_i hle
          have helf := h d pid hd (by omega) hp
          rw [Option.some.inj hi] at helf
          rw [hb, hp] at he
          simp [helf] at he

/-- The name of a file that is no ELF image. -/
def textName : Nat → UInt8 := cstr (lit ['f', 'r', 'a', 'm', 'e', '0'])

/-- The shell of terminal 2 executes `frame0`, which is no ELF image: the next PCB stays in
use. -/
theorem execute_text_takes_pcb : ∃ s, kernel.run (boot sampleBoot) sampleLaunches = some s ∧
    ¬ s.AtomicOnFailure textName sampleExec := by
  have hv : (kernel.run (boot sampleBoot) sampleLaunches).map
      (fun s => (s.freePid, (s.fs.header textName sampleExec.buf).map Kernel.isElf)) =
      some (some 3, some false) := by decide +kernel
  obtain ⟨u, hu, hv⟩ := Option.map_eq_some_iff.mp hv
  obtain ⟨hp, hh⟩ := Prod.mk.inj hv
  obtain ⟨buf, hb, he⟩ := Option.map_eq_some_iff.mp hh
  exact ⟨u, hu, not_atomicOnFailure hp hb (by simp [he])⟩

end Mp3
