import Mp3Os.Keyboard
import Mp3Os.Terminal

/-!
# System calls (`syscall.c`, `rtc.c`, `vid_map`)

`sys_read` and `sys_write` choose the routine to call in `readTarget` and `writeTarget`; they
look at the entry that the globals `currPid` and `currFD` name, which `sys_open` and `sys_close`
set. A user buffer is its address and the memory from there on.

A call that blocks, or that jumps through a NULL table, does not return: `none`.
-/

namespace Mp3

/-- A system call that returned: the value, the caller's buffer, and the state. -/
structure SysResult where
  ret : Int
  buf : Nat → UInt8
  state : Kernel

/-- What `sys_read` and `sys_write` do with a request: return -1, go to the terminal, or call the
routine of an operation table. -/
inductive Target where
  | reject
  | terminal
  | call (ops : Option Fop)
  deriving DecidableEq

/-- The request goes to `terminal_read` or `terminal_write`. -/
def Target.isTerminal : Target → Bool
  | .terminal | .call (some .terminal) => true
  | _ => false

/-! ## `rtc.c` -/

/-- The doubling loop of `rtc_write`. -/
def rateLoop : Nat → Int → Nat → Nat
  | 0, _, rate => rate
  | fuel + 1, freq, rate => if freq ≤ 16384 then rateLoop fuel (freq * 2) (rate + 1) else rate

/-- The test of `rtc_write`. -/
def rtcFreqOk (freq : Int) : Prop :=
  freq = 2 ∨ freq = 4 ∨ freq = 8 ∨ freq = 16 ∨ freq = 32 ∨ freq = 64 ∨ freq = 128 ∨ freq = 256 ∨
    freq = 512 ∨ freq = 1024

instance (freq : Int) : Decidable (rtcFreqOk freq) := inferInstanceAs (Decidable (_ ∨ _))

/-- `rtc_write` of the word in the caller's buffer. -/
def rtcWrite (r : Rtc) (inputFreq : Int) : Int × Rtc :=
  if ¬ rtcFreqOk inputFreq then (-1, r)
  else
    let rate := rateLoop 32 inputFreq 0
    let rate := if rate < 4 then 4 else if rate > 15 then 15 else rate
    let rate := rate % 16
    (0, ⟨rate, (r.regA &&& 0xF0) ||| UInt8.ofNat rate⟩)

namespace Kernel

variable (s : Kernel)

/-! ## `sys_read` and `sys_write` -/

/-- The entry that the globals name. -/
def globalEntry : FdEntry := s.fdEntry s.currPid s.currFD

/-- The tests of `sys_read`. -/
def readTarget (fd : Int) (buf : Nat) : Target :=
  if fd < 0 ∨ fd ≥ 6 ∨ fd = 1 then .reject
  else if buf = 0 then .reject
  else if fd = 0 then .terminal
  else if s.globalEntry.present = -1 ∨ s.currFD = -1 then .reject
  else .call s.globalEntry.jumpStartIdx

/-- The tests of `sys_write`. -/
def writeTarget (fd : Int) (buf : Nat) : Target :=
  if fd < 0 ∨ fd ≥ 6 ∨ fd = 0 then .reject
  else if buf = 0 then .reject
  else if fd = 1 then .terminal
  else if s.globalEntry.present = -1 ∨ s.currFD = -1 then .reject
  else .call s.globalEntry.jumpStartIdx

/-- `terminal_read` into the caller's buffer. -/
def terminalReadTo (mem : Nat → UInt8) (nbytes : Int) : Option SysResult :=
  (s.terminalRead nbytes).map fun (ret, bytes, s') =>
    ⟨ret, fun i => if i < bytes.length then bytes.getD i 0 else mem i, s'⟩

/-- The first `nbytes` bytes of a buffer go to the terminal. -/
def terminalWriteFrom (mem : Nat → UInt8) (nbytes : Int) : SysResult :=
  let r := s.terminalWrite ((List.range nbytes.toNat).map mem)
  ⟨r.1, mem, r.2⟩

/-- The `read` of an operation table. `rtc_read` waits for the next interrupt. -/
def opRead (op : Fop) (fd : Int) (stack mem : Nat → UInt8) (nbytes : Int) : Option SysResult :=
  match op with
  | .rtc => some ⟨0, mem, s⟩
  | .dir =>
    let r := dirRead s.fs stack mem nbytes
    some ⟨r.1, r.2.1, { s with fs := r.2.2 }⟩
  | .file =>
    let r := s.fileRead fd mem nbytes
    some ⟨r.1, r.2.1, r.2.2⟩
  | .terminal => s.terminalReadTo mem nbytes

/-- The `write` of an operation table: `file_write` and `dir_write` only return -1. -/
def opWrite (op : Fop) (mem : Nat → UInt8) (nbytes : Int) : SysResult :=
  match op with
  | .rtc =>
    let r := rtcWrite s.rtc (i32 (le32 mem 0))
    ⟨r.1, mem, { s with rtc := r.2 }⟩
  | .dir => ⟨-1, mem, s⟩
  | .file => ⟨-1, mem, s⟩
  | .terminal => s.terminalWriteFrom mem nbytes

/-- `sys_read`. `stack` is what the locals of the routine held before. -/
def sysRead (fd : Int) (buf : Nat) (stack mem : Nat → UInt8) (nbytes : Int) : Option SysResult :=
  match s.readTarget fd buf with
  | .reject => some ⟨-1, mem, s⟩
  | .terminal => s.terminalReadTo mem nbytes
  | .call none => none
  | .call (some op) => s.opRead op fd stack mem nbytes

/-- `sys_write`. -/
def sysWrite (fd : Int) (buf : Nat) (mem : Nat → UInt8) (nbytes : Int) : Option SysResult :=
  match s.writeTarget fd buf with
  | .reject => some ⟨-1, mem, s⟩
  | .terminal => some (s.terminalWriteFrom mem nbytes)
  | .call none => none
  | .call (some op) => some (s.opWrite op mem nbytes)

/-! ## `sys_open`, `sys_close`, `sys_getargs` -/

/-- `sys_open`. -/
def sysOpen (filename : Nat → UInt8) : Int × Kernel :=
  if filename 0 = 0 then (-1, s)
  else
    let (currFD, s) := s.insertFdt filename
    (currFD, { s with currFD := currFD, currPid := s.curr })

/-- `sys_close`. -/
def sysClose (fd : Int) : Int × Kernel :=
  if fd ≤ 2 ∨ fd ≥ 6 then (-1, s)
  else
    let (retval, s) := s.removeFdEntry fd
    (retval, if retval = 0 then { s with currFD := s.currFD - 1 } else s)

/-- `sys_getargs`. `after` is what lies behind the `args` array of the PCB. -/
def sysGetargs (after mem : Nat → UInt8) (nbytes : Int) : SysResult :=
  let args := terminalGetargs s.storeargs
  let s := s.modPcb s.curr fun b => { b with args := args }
  if args.getD 0 = 0 then ⟨-1, mem, s⟩
  else
    ⟨0, fun i =>
      if i < u32 nbytes then if i < 1024 then args.getD i else after (i - 1024) else mem i, s⟩

/-! ## `sys_vidmap` -/

/-- A 32-bit store of the kernel; `none` when a byte of it is not mapped. The pages below 4 MB
are video memory. -/
def storeWord (va value : Nat) : Option Kernel :=
  ([0, 1, 2, 3] : List Nat).foldlM (fun (s : Kernel) i =>
    (s.paging.translate false ((va + i) % 4294967296)).map fun pa =>
      let b := UInt8.ofNat (value / 256 ^ i)
      if pa < 4194304 then
        { s with con := { s.con with vram := Function.update s.con.vram pa b } }
      else { s with umem := Function.update s.umem pa b }) s

/-- The writes of `vid_map` before the one to the caller's pointer. -/
def vidMapped (screenStart : Nat) : Kernel :=
  { s.modTerm s.curTerminal fun t => { t with screenStart := screenStart } with
    paging := s.paging.vidMapEntries s.curTerminal }

/-- `vid_map`. -/
def vidMap (screenStart : Nat) : Outcome :=
  let s := s.vidMapped screenStart
  match s.storeWord screenStart (138412032 + s.curTerminal.toNat * 4096) with
  | some s' => .ret s'
  | none => .fault s

/-- The test of `sys_vidmap`. -/
def vidmapAccepts (screenStart : Nat) : Prop :=
  ¬ (screenStart = 0 ∨ (0x400000 ≤ screenStart ∧ screenStart < 0x800000))

instance (screenStart : Nat) : Decidable (vidmapAccepts screenStart) :=
  inferInstanceAs (Decidable (¬ _))

/-- `sys_vidmap`. -/
def sysVidmap (screenStart : Nat) : Outcome :=
  if vidmapAccepts screenStart then s.vidMap screenStart else .ret s

variable {s}

/-- A store changes memory and nothing else. -/
theorem storeWord_eq {va value : Nat} {s' : Kernel} (h : s.storeWord va value = some s') :
    ∃ vram umem, s' = { s with con := { s.con with vram := vram }, umem := umem } := by
  unfold storeWord at h
  generalize ([0, 1, 2, 3] : List Nat) = l at h
  induction l generalizing s with
  | nil => cases h; exact ⟨_, _, rfl⟩
  | cons i l ih =>
    rw [List.foldlM_cons] at h
    obtain ⟨u, hu, h⟩ := Option.bind_eq_some_iff.mp h
    obtain ⟨vram, umem, rfl⟩ := ih h
    obtain ⟨pa, -, rfl⟩ := Option.map_eq_some_iff.mp hu
    dsimp only
    split
    · exact ⟨vram, umem, rfl⟩
    · exact ⟨vram, umem, rfl⟩

/-- The three ends of `sys_vidmap`. -/
theorem sysVidmap_cases (screenStart : Nat) :
    (¬ vidmapAccepts screenStart ∧ s.sysVidmap screenStart = .ret s) ∨
    (vidmapAccepts screenStart ∧
      (s.sysVidmap screenStart = .fault (s.vidMapped screenStart) ∨
        ∃ vram umem, s.sysVidmap screenStart = .ret { s.vidMapped screenStart with
          con := { s.con with vram := vram }, umem := umem })) := by
  unfold sysVidmap
  split
  · rename_i ha
    refine .inr ⟨ha, ?_⟩
    unfold vidMap
    dsimp only
    split
    · rename_i hs
      obtain ⟨vram, umem, rfl⟩ := storeWord_eq hs
      exact .inr ⟨vram, umem, rfl⟩
    · exact .inl rfl
  · rename_i ha
    exact .inl ⟨ha, rfl⟩

end Kernel

end Mp3
