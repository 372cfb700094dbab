import Mp3Os.Lib.Lts
import Mp3Os.Syscall

/-!
# The kernel as a system of events

`boot` is the state when `entry` starts to spin: interrupts are on, no process exists. From
there the kernel moves by events: interrupts, system calls of the process that is scheduled, and
exceptions. An event is a handler that runs to its end.

Where a handler has two kinds of end, each is an event of its own, so that a statement can name
the runs it is about: a tick that starts a base shell (`tickLaunch`) or resumes a process
(`tick`), a key whose handler returns (`key`) or faults (`keyFault`), an `execute` that reaches
user mode (`execUser`) or returns -1 (`execFail`). System calls and exceptions need a process to
make them: the scheduled terminal has one.
-/

namespace Mp3

/-- What the machine has at boot: the file-system image, the linker's addresses, the contents of
video memory and the text that `entry` prints. -/
structure BootIn where
  image : Nat → UInt8
  layout : Layout
  vram : Nat → UInt8
  messages : List UInt8

/-- A PCB in zeroed memory. -/
def Pcb.zeroed : Pcb where
  fdTable := fun _ => ⟨0, 0, 0, none, 0⟩
  pcbInUse := 0
  esp := 0
  ebp := 0
  taskEsp := 0
  taskEbp := 0
  esp0 := 0
  ss0 := 0
  returnLabelAdd := 0
  parentPid := 0
  args := Buf.zero

/-- A terminal in zeroed memory. -/
def Terminal.zeroed : Terminal where
  shellPid := 0
  videoBuffer := 0
  screenStart := 0
  bufKb := Buf.zero
  saveTss := ⟨0, 0⟩
  screenX := 0
  screenY := 0
  currIdx := 0
  numChars := 0
  saveX := 0
  saveY := 0
  prevNumChars := 0
  prevBuf := Buf.zero
  currProcess := 0
  enterFlag := 0

/-- The state before `init_PCB`: the screen is cleared and has the boot messages, the first TSS
is set, `init_keyboard`, `init_paging` and `filesys_init` have run. -/
def preBoot (b : BootIn) : Kernel where
  fs := FileSys.filesysInit b.image
  pcbs := fun _ => Pcb.zeroed
  currPid := 0
  currFD := 0
  terminals := fun _ => Terminal.zeroed
  curTerminal := 0
  visible := 0
  pitCount := 0
  pitIntrCount := 0
  tss := ⟨0x800000, kernelDs⟩
  paging := Paging.initPaging b.layout
  con := (Console.clear ⟨b.vram, 0, 0, 0⟩ 0xB8).putcs 0xB8 b.messages
  kbd := ⟨Buf.zero, 0, 0, 0, 0, Buf.zero, 0⟩
  flags := ⟨0, 0, 0, 0, 0⟩
  storeargs := Buf.zero
  rtc := ⟨0, 0⟩
  umem := fun _ => 0
  firstInstruct := 0
  retVal := 0

/-- The state when `entry` starts to spin. -/
def boot (b : BootIn) : Kernel := (preBoot b).initPCB.initTerminals.initPIT

/-- What the handler of an exception prints. -/
def exceptionText (vector : Nat) : List UInt8 :=
  if vector = 14 then lit ['P', 'a', 'g', 'e', ' ', 'F', 'a', 'u', 'l', 't', '\n']
  else if vector < 20 then lit ['E', 'R', 'R', 'O', 'R', ' '] ++ itoa (vector + 1) 10 ++ [ch '\n']
  else []

namespace Kernel

/-- A process runs: the scheduled terminal has one. -/
def HasProcess (s : Kernel) : Prop := 0 ≤ s.curr

instance (s : Kernel) : Decidable s.HasProcess := inferInstanceAs (Decidable (_ ≤ _))

/-- The handler of an exception: print, and halt the process with status `(uint8_t) 256`. -/
def exception (s : Kernel) (vector : Nat) (xs : List ExecIn) : Option Kernel :=
  if s.HasProcess then ((s.print (exceptionText vector)).halt 0 xs).map HaltResult.state
  else none

end Kernel

/-- The events (module doc). -/
inductive Event where
  | tick (esp ebp : UInt32) (x : ExecIn)
  | tickLaunch (esp ebp : UInt32) (x : ExecIn)
  | key (scanCode : UInt8) (st : Stack)
  | keyFault (scanCode : UInt8) (st : Stack) (xs : List ExecIn)
  | execUser (fname : Nat → UInt8) (x : ExecIn)
  | execFail (fname : Nat → UInt8) (x : ExecIn)
  | halt (ebx : UInt32) (xs : List ExecIn)
  | exception (vector : Nat) (xs : List ExecIn)
  | openFd (filename : Nat → UInt8)
  | closeFd (fd : Int)
  | read (fd : Int) (buf : Nat) (stack mem : Nat → UInt8) (nbytes : Int)
  | write (fd : Int) (buf : Nat) (mem : Nat → UInt8) (nbytes : Int)
  | getargs (after mem : Nat → UInt8) (nbytes : Int)
  | vidmap (screenStart : Nat)
  | vidmapFault (screenStart : Nat) (xs : List ExecIn)

/-- A system call: a process makes it. -/
def Kernel.syscall (s : Kernel) (r : Option Kernel) : Option Kernel :=
  if s.HasProcess then r else none

/-- `syscall_halt`: the stub masks the register, and `sys_halt` takes the low byte. -/
def syscallHalt (ebx : UInt32) : UInt8 := (ebx &&& 0xF).toUInt8

/-- What an event does. -/
def Kernel.step (s : Kernel) : Event → Option Kernel
  | .tick esp ebp x =>
    match s.pitHandler esp ebp x with
    | .resume s' _ _ => some s'
    | .user _ => none
  | .tickLaunch esp ebp x =>
    match s.pitHandler esp ebp x with
    | .resume _ _ _ => none
    | .user s' => some s'
  | .key scanCode st =>
    match s.keyboardHandler scanCode.toNat st with
    | .ret s' => some s'
    | .fault _ => none
  | .keyFault scanCode st xs =>
    match s.keyboardHandler scanCode.toNat st with
    | .ret _ => none
    | .fault s' => s'.exception 14 xs
  | .execUser fname x => s.syscall <|
    match s.execute fname x with
    | .user s' => some s'
    | .fail _ => none
  | .execFail fname x => s.syscall <|
    match s.execute fname x with
    | .user _ => none
    | .fail s' => some s'
  | .halt ebx xs => s.syscall ((s.halt (syscallHalt ebx) xs).map HaltResult.state)
  | .exception vector xs => s.exception vector xs
  | .openFd filename => s.syscall (some (s.sysOpen filename).2)
  | .closeFd fd => s.syscall (some (s.sysClose fd).2)
  | .read fd buf stack mem nbytes =>
    s.syscall ((s.sysRead fd buf stack mem nbytes).map SysResult.state)
  | .write fd buf mem nbytes => s.syscall ((s.sysWrite fd buf mem nbytes).map SysResult.state)
  | .getargs after mem nbytes => s.syscall (some (s.sysGetargs after mem nbytes).state)
  | .vidmap screenStart => s.syscall <|
    match s.sysVidmap screenStart with
    | .ret s' => some s'
    | .fault _ => none
  | .vidmapFault screenStart xs => s.syscall <|
    match s.sysVidmap screenStart with
    | .ret _ => none
    | .fault s' => s'.exception 14 xs

/-- The kernel as a system. -/
def kernel : Lts Kernel Event := ⟨Kernel.step⟩

/-! ## A small machine

An image with a directory, a device, two programs and a text, for the runs that are
evaluated. -/

/-- Memory that is zero except for some parts. -/
def memory (parts : List (Nat × List UInt8)) (a : Nat) : UInt8 :=
  match parts.find? fun p => p.1 ≤ a ∧ a < p.1 + p.2.length with
  | some p => p.2.getD (a - p.1) 0
  | none => 0

/-- The directory entries are `.`, `shell`, `ls`, `rtc` and `frame0`; the first file is an ELF
image, the second is not. -/
def sampleImage : Nat → UInt8 := memory
  [(0, [5]), (4, [2]), (8, [2]),
   (64, lit ['.']), (96, [1]),
   (128, lit ['s', 'h', 'e', 'l', 'l']), (160, [2]),
   (192, lit ['l', 's']), (224, [2]),
   (256, lit ['r', 't', 'c']),
   (320, lit ['f', 'r', 'a', 'm', 'e', '0']), (352, [2]), (356, [1]),
   (4096, [40]), (8192, [4]), (8196, [1]),
   (12288, [0x7F, 0x45, 0x4C, 0x46]), (16384, lit ['t', 'e', 'x', 't'])]

def sampleBoot : BootIn where
  image := sampleImage
  layout := ⟨4096, 8192, rfl, rfl, by decide⟩
  vram := fun _ => 0
  messages := []

def sampleExec : ExecIn := ⟨0, 0, 0, fun _ => 0⟩

/-- The tick that starts a base shell on the small machine. -/
def sampleLaunch : Event := .tickLaunch 0 0 sampleExec

/-- The three base shells start. -/
def sampleLaunches : List Event := [sampleLaunch, sampleLaunch, sampleLaunch]

/-- The keys with these scan codes. -/
def sampleKeys (codes : List UInt8) : List Event :=
  codes.map fun c => .key c ⟨fun _ => 0, fun _ => none, fun _ => 0⟩

end Mp3
