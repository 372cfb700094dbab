import Mathlib.Logic.Function.Basic
import Mp3Os.Lib.Bytes

/-!
# The data of the kernel

The globals and structures of `student-distrib`, one record per source file that owns them:
`FileSys` (`filesys.c`), `Pcb` (`pcb.h`), `Terminal` (`schedule.h`), `Paging` (`paging.c`),
`Console` (the static variables of `lib.c` and the video pages), `Kbd` (`keyboard.c`), and
`Kernel`, all of them together.

* A C `int` is an `Int`, a register or stack address a `UInt32`. A `uint8_t` field that stores an
  `int` holds it modulo 256.
* `PCB_array`, `fd_table` and `terminals` are maps from `Int`: the code indexes them with values
  that may be `-1` or too large. The entries outside `0..5`, `0..7` and `0..2` stand for the
  memory next to the array; no other variable of the model lies there.
* Left out: the fields of `tss_t` that no function sets after boot, the PIC, the speaker, and
  the `fdt` and `bytescounter` globals that no function reads.
-/

namespace Mp3

/-- The operation tables of `pcb.c`: `rtc_struct`, `dir_struct`, `file_struct`,
`terminal_struct`. -/
inductive Fop where
  | rtc | dir | file | terminal
  deriving DecidableEq, Repr

/-- `fd_table_entry_t`. The pointer `jump_start_idx` is `none` when it is NULL. -/
structure FdEntry where
  present : Int
  filePos : Int
  inodeNumber : Int
  jumpStartIdx : Option Fop
  fileType : Int
  deriving DecidableEq

/-- `PCB_struct`. -/
structure Pcb where
  fdTable : Int → FdEntry
  pcbInUse : Int
  esp : UInt32
  ebp : UInt32
  taskEsp : UInt32
  taskEbp : UInt32
  esp0 : UInt32
  ss0 : UInt32
  returnLabelAdd : UInt32
  parentPid : Int
  args : Buf 1024

/-- `tss_t`: the stack the processor loads on a trap from user mode. -/
structure Tss where
  esp0 : UInt32
  ss0 : UInt16
  deriving DecidableEq

/-- `terminal_t`. The counters are `uint8_t`. -/
structure Terminal where
  shellPid : Int
  videoBuffer : Nat
  screenStart : Nat
  bufKb : Buf 128
  saveTss : Tss
  screenX : Nat
  screenY : Nat
  currIdx : Int
  numChars : Int
  saveX : Nat
  saveY : Nat
  prevNumChars : Int
  prevBuf : Buf 128
  currProcess : Int
  enterFlag : Int

/-- `dentry_t` without its reserved bytes. -/
structure Dentry where
  name : Buf 32
  fileType : Nat
  inodeNum : Nat

/-- The globals of `filesys.c`. `image i` is the byte at `start_addr + i`. -/
structure FileSys where
  image : Nat → UInt8
  numdentries : Nat
  numinodes : Nat
  numblocks : Nat
  curfile : Nat
  currDentry : Dentry

/-- The paging structures of `paging.c`, 1024 entries each, and the addresses at which the two
page tables are linked. -/
structure Paging where
  pageTableAddr : Nat
  userVideoPageTableAddr : Nat
  pageDirectory : Nat → Nat
  pageTable : Nat → Nat
  userVideoPageTable : Nat → Nat

/-- The static variables of `lib.c`, the physical memory of the VGA page and of the three video
buffers (`vram`, by physical address), and the position last sent to the VGA cursor registers. -/
structure Console where
  vram : Nat → UInt8
  screenX : Nat
  screenY : Nat
  cursor : Nat

/-- The line-editing globals of `keyboard.c`. -/
structure Kbd where
  bufKb : Buf 128
  currIdx : Int
  numChars : Int
  saveX : Nat
  saveY : Nat
  previousBuf : Buf 128
  previousNumChars : Int

/-- `flag_arr`. -/
structure Flags where
  lshift : Int
  rshift : Int
  ctrl : Int
  caps : Int
  alt : Int
  deriving DecidableEq

/-- `rate` of `rtc.c` and the RTC's register A. -/
structure Rtc where
  rate : Nat
  regA : UInt8
  deriving DecidableEq

/-- The state of the kernel. -/
structure Kernel where
  fs : FileSys
  pcbs : Int → Pcb
  currPid : Int
  currFD : Int
  terminals : Int → Terminal
  curTerminal : Int
  visible : Int
  pitCount : Nat
  pitIntrCount : Nat
  tss : Tss
  paging : Paging
  con : Console
  kbd : Kbd
  flags : Flags
  storeargs : Buf 1024
  rtc : Rtc
  /-- The physical memory of the process frames. -/
  umem : Nat → UInt8
  firstInstruct : UInt32
  /-- `ret_val` of `halt.h`: what `execute` returns when its child has ended. -/
  retVal : Int

namespace Kernel

/-- `terminals[cur_terminal].curr_process`. -/
def curr (s : Kernel) : Int := (s.terminals s.curTerminal).currProcess

/-- `PCB_array[p] = f(PCB_array[p])`. -/
def modPcb (s : Kernel) (p : Int) (f : Pcb → Pcb) : Kernel :=
  { s with pcbs := Function.update s.pcbs p (f (s.pcbs p)) }

/-- `terminals[t] = f(terminals[t])`. -/
def modTerm (s : Kernel) (t : Int) (f : Terminal → Terminal) : Kernel :=
  { s with terminals := Function.update s.terminals t (f (s.terminals t)) }

/-- The entry `fd` of the descriptor table of process `p`. -/
def fdEntry (s : Kernel) (p fd : Int) : FdEntry := (s.pcbs p).fdTable fd

/-- `PCB_array[p].fd_table[fd] = e`. -/
def setFd (s : Kernel) (p fd : Int) (e : FdEntry) : Kernel :=
  s.modPcb p fun b => { b with fdTable := Function.update b.fdTable fd e }

/-- `terminals[t].enter_flag = v`. -/
def setEnterFlag (s : Kernel) (t v : Int) : Kernel := s.modTerm t fun r => { r with enterFlag := v }

@[simp] theorem fdEntry_setFd_self (s : Kernel) (p fd : Int) (e : FdEntry) :
    (s.setFd p fd e).fdEntry p fd = e := by
  simp [fdEntry, setFd, modPcb]

end Kernel

/-- A handler returns, or takes a page fault in the state it reached. -/
inductive Outcome where
  | ret (s : Kernel)
  | fault (s : Kernel)

/-- The state in which a handler ends. -/
def Outcome.state : Outcome → Kernel
  | .ret s => s
  | .fault s => s

/-- The state in which a handler returns. -/
def Outcome.returned : Outcome → Option Kernel
  | .ret s => some s
  | .fault _ => none

end Mp3
