import Mp3Os.FileSys
import Mp3Os.Paging
import Mp3Os.Console

/-!
# Processes (`pcb.c`, `execute.c`, `halt.c`)

`execute` either returns -1 to its caller (`fail`) or switches to user mode and does not return
(`user`). `halt` of a child jumps to the label that `execute` recorded in the child's PCB
(`resume`); `halt` of a base shell starts a new one, again and again until one starts
(`restarted`).

What the code takes from the machine is in `ExecIn`: `esp` and `ebp`, the address of
`ret_label`, and the contents of the stack buffer `buf` that `read_ELF` may not fill.
-/

namespace Mp3

/-- What a call of `execute` takes from the machine. -/
structure ExecIn where
  esp : UInt32
  ebp : UInt32
  retLabel : UInt32
  buf : Nat → UInt8

/-- The outcome of `execute`. -/
inductive ExecResult where
  | fail (s : Kernel)
  | user (s : Kernel)

/-- The outcome of `halt`. -/
inductive HaltResult where
  | resume (s : Kernel) (esp ebp label : UInt32)
  | restarted (s : Kernel)

/-- The state after a `halt`. -/
def HaltResult.state : HaltResult → Kernel
  | .resume s _ _ _ => s
  | .restarted s => s

/-- A NUL-terminated string in memory. -/
def cstr (l : List UInt8) : Nat → UInt8 := fun i => l.getD i 0

/-- The name of the base shell. -/
def shellName : Nat → UInt8 := cstr (lit ['s', 'h', 'e', 'l', 'l'])

/-- `0x800000 - pid * 0x2000 - 4`: the kernel stack of a process. -/
def kernelStack (pid : Int) : UInt32 := UInt32.ofNat (u32 (0x800000 - pid * 0x2000 - 4))

/-- `KERNEL_DS`. -/
def kernelDs : UInt16 := 0x18

/-- `(pid + 2) * FOUR_MB` as an address. -/
def frameAddr (pid : Int) : Nat := u32 ((pid + 2) * 4194304)

/-- What `halt` leaves in the PCB of a process with a parent. -/
def Pcb.destruct (b : Pcb) : Pcb :=
  { b with
    fdTable := fun i => if 2 ≤ i ∧ i < 8 then ⟨-1, 0, -1, none, -1⟩ else b.fdTable i
    pcbInUse := -1
    args := fun i => if i.1 < 1023 then 0 else b.args i
    esp := 0xFFFFFFFF
    ebp := 0xFFFFFFFF
    returnLabelAdd := 0xFFFFFFFF
    parentPid := -1 }

namespace Kernel

variable (s : Kernel)

/-! ## `pcb.c` -/

/-- `init_PCB`. -/
def initPCB : Kernel :=
  { s with pcbs := fun j =>
      if 0 ≤ j ∧ j < 6 then
        { s.pcbs j with
          pcbInUse := -1
          fdTable := fun i =>
            let e := (s.pcbs j).fdTable i
            if i = 0 ∨ i = 1 then ⟨-1, 0, 0, some .terminal, 3⟩
            else if 2 ≤ i ∧ i < 8 then { e with present := -1 } else e }
      else s.pcbs j }

/-- The first PCB that is not in use. -/
def freePid : Option Int := ([0, 1, 2, 3, 4, 5] : List Int).find? fun i => (s.pcbs i).pcbInUse = -1

/-- `getPID`. -/
def getPID : Int × Kernel :=
  match s.freePid with
  | some i => (i, s.modPcb i fun b => { b with pcbInUse := 0 })
  | none => (-1, s)

/-- `get_fdAvail`. -/
def getFdAvail (processId : Int) : Int × Kernel :=
  match ([2, 3, 4, 5, 6, 7] : List Int).find? fun i => (s.fdEntry processId i).present = -1 with
  | some i => (i, s.setFd processId i { s.fdEntry processId i with present := 0 })
  | none => (-1, s)

/-- `file_open`. -/
def fileOpen (filename : Nat → UInt8) : Int × Kernel :=
  (if (readDentryByName s.fs filename).isSome then 0 else -1,
    { s with fs := s.fs.opened filename })

/-- The operation table for a file type; other types leave the pointer as it is. -/
def opsOf (fileType : Int) (old : Option Fop) : Option Fop :=
  if fileType = 0 then some .rtc
  else if fileType = 1 then some .dir
  else if fileType = 2 then some .file
  else old

/-- `insert_fdt`. -/
def insertFdt (filename : Nat → UInt8) : Int × Kernel :=
  let (i, s) := s.fileOpen filename
  if i = -1 then (-1, s)
  else
    let currPid := s.curr
    let (currFD, s) := s.getFdAvail currPid
    if currFD = -1 then (-1, s)
    else
      match readDentryByName s.fs filename with
      | none => (-1, s)
      | some d =>
        let e := s.fdEntry currPid currFD
        (currFD, s.setFd currPid currFD
          { e with
            fileType := i32 d.fileType
            inodeNumber := i32 d.inodeNum
            jumpStartIdx := opsOf (i32 d.fileType) e.jumpStartIdx
            present := 0 })

/-- `remove_fd_entry`. -/
def removeFdEntry (fd : Int) : Int × Kernel :=
  let currPid := s.curr
  if (s.fdEntry currPid fd).present = 0 then
    (0, s.setFd currPid fd { s.fdEntry currPid fd with present := -1 })
  else (-1, s)

/-! ## `execute.c` -/

/-- `file_read`: the return value, the buffer afterwards, and the moved file position. -/
def fileRead (fd : Int) (buf : Nat → UInt8) (nbytes : Int) : Int × (Nat → UInt8) × Kernel :=
  if fd > -1 then
    let e := s.fdEntry s.curr fd
    let (bytesCopied, buf) := readData s.fs (u32 e.inodeNumber) (u32 e.filePos) buf (u32 nbytes)
    (bytesCopied, buf, s.setFd s.curr fd
      { e with filePos := if bytesCopied ≠ 0 then e.filePos + bytesCopied else 0 })
  else
    let (bytesCopied, buf) := readData s.fs s.fs.currDentry.inodeNum 0 buf (u32 nbytes)
    (bytesCopied, buf, s)

/-- `read_ELF`: the first 28 bytes of the file. -/
def readElf (fname buf : Nat → UInt8) (fd : Int) : Int × (Nat → UInt8) × Kernel :=
  let (i, s) := s.fileOpen fname
  if i = -1 then (-1, buf, s) else s.fileRead fd buf 28

/-- `load`: the file goes to `0x08048000`, in the frame mapped at `0x08000000`. -/
def load (fname : Nat → UInt8) : Int × Kernel :=
  let (_, s) := s.fileOpen fname
  let base := s.paging.pageDirectory 32 / 4194304 * 4194304 + 0x48000
  let (i, buf) := readData s.fs s.fs.currDentry.inodeNum 0 (fun i => s.umem (base + i)) 0x3B8000
  (i, { s with umem := fun a => if base ≤ a then buf (a - base) else s.umem a })

/-- `map_page` of the frame of process `pid` at `0x08000000`. -/
def mapProcess (pid : Int) : Kernel :=
  { s with paging := s.paging.mapPage (frameAddr pid) 0x08000000 0x87 }

/-- The part of `execute` between `getPID` and the ELF test: the PCB of `pid` gets the caller's
stack, and `pid` becomes the process of the terminal. -/
def enterProcess (pid : Int) (x : ExecIn) : Kernel :=
  let parent := s.curr
  let s := s.modPcb pid fun b =>
    { b with
      esp := x.esp
      ebp := x.ebp
      returnLabelAdd := x.retLabel
      esp0 := s.tss.esp0
      ss0 := s.tss.ss0.toUInt32
      parentPid := parent }
  let s := s.modTerm s.curTerminal fun t => { t with currProcess := pid }
  s.mapProcess pid

/-- The test for the ELF magic number. -/
def isElf (buf : Nat → UInt8) : Bool :=
  buf 0 = 0x7F && buf 1 = 0x45 && buf 2 = 0x4C && buf 3 = 0x46

/-- `execute`. `temp` holds the first 128 bytes of the name, which is more than a lookup
reads. -/
def execute (fname : Nat → UInt8) (x : ExecIn) : ExecResult :=
  let temp : Nat → UInt8 := fun i => if i < 128 then fname i else 0
  let (error, buf, s) := s.readElf fname x.buf (-1)
  if error = -1 then .fail s
  else
    let (pid, s) := s.getPID
    if pid = -1 then .fail s
    else
      let s := s.enterProcess pid x
      if isElf buf then
        let s := { s with firstInstruct := UInt32.ofNat (le32 buf 24) }
        let (_, s) := s.load temp
        .user { s with tss := ⟨kernelStack pid, kernelDs⟩ }
      else .fail s

/-! ## `halt.c` -/

/-- `printf` of a text without conversions, through the window. -/
def print (text : List UInt8) : Kernel :=
  { s with con := s.con.putcs s.paging.videoFrame text }

/-- The endless loop of `halt` for a process without a parent. The list has what each `execute`
takes from the machine; the loop ends with the first that reaches user mode. -/
def restart (currPcb : Int) : Kernel → List ExecIn → Option Kernel
  | _, [] => none
  | s, x :: xs =>
    let s := s.modPcb currPcb fun b => { b with pcbInUse := -1 }
    let s := s.modTerm currPcb fun t => { t with currProcess := -1 }
    let s := s.print (lit ['R', 'e', 'e', '-'])
    match s.execute shellName x with
    | .user s' => some s'
    | .fail s' => restart currPcb s' xs

/-- `halt`. The status is not used. -/
def halt (_status : UInt8) (xs : List ExecIn) : Option HaltResult :=
  let currPcb := s.curr
  if (s.pcbs currPcb).parentPid = -1 then (restart currPcb s xs).map .restarted
  else
    let old := s.pcbs currPcb
    let s := s.modPcb currPcb Pcb.destruct
    let s := { s with tss := ⟨old.esp0, old.ss0.toUInt16⟩ }
    let s := s.modTerm s.curTerminal fun t => { t with currProcess := old.parentPid }
    some (.resume (s.mapProcess old.parentPid) old.esp old.ebp old.returnLabelAdd)

end Kernel

end Mp3
