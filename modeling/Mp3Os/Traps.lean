import Mathlib.Tactic.IntervalCases
import Mp3Os.Printf
import Mp3Os.System

/-!
# The entry of system calls (`syscall_asm.S`)

`int 0x80` reaches `syscall_handler_asm` with the call number in EAX and the arguments in EBX, ECX
and EDX. The entry checks the number, `syscall_read` checks its three arguments against -1, and
everything else is checked by the C wrappers. The two ways to refuse differ: `fail_param` sets
EAX, `fail` calls `syscall_handler`, which prints and leaves in EAX what `printf` returned.

A trap that comes back to the caller, or that leaves for another program, is an event of the
kernel (`int80_step`).
-/

namespace Mp3

/-- The registers that a system call looks at. -/
structure Regs where
  eax : UInt32
  ebx : UInt32
  ecx : UInt32
  edx : UInt32
  deriving DecidableEq

/-- What a system call finds outside its registers: the memory at EBX and at ECX, what the stack
of `dir_read` held and what the one of `printf` has, what follows `args` in the PCB, and what the
`execute`s take. -/
structure TrapIn where
  atEbx : Nat → UInt8
  atEcx : Nat → UInt8
  stack : Nat → UInt8
  words : Stack
  after : Nat → UInt8
  x : ExecIn
  xs : List ExecIn

/-- How a trap ends: `iret` to the caller, another program runs, a page fault, or never. -/
inductive Trap where
  | iret (eax : UInt32) (s : Kernel)
  | leaves (s : Kernel)
  | fault (s : Kernel)
  | stuck

/-- EAX after a C function. -/
def retReg (ret : Int) : UInt32 := UInt32.ofNat (u32 ret)

/-- A call that returned, or did not. -/
def Trap.ofResult : Option SysResult → Trap
  | some r => .iret (retReg r.ret) r.state
  | none => .stuck

/-- The text of `syscall_handler`. -/
def invalidText : List UInt8 :=
  lit ['s', 'y', 's', 'c', 'a', 'l', 'l', ' ', 'p', 'a', 'r', 'a', 'm', 'e', 't', 'e', 'r', 's',
    ' ', 'i', 'n', 'v', 'a', 'l', 'i', 'd', '\n']

namespace Kernel

variable (s : Kernel)

/-- `syscall_handler`, with what its `printf` leaves in EAX: the length of the format. -/
def syscallHandler (st : Stack) : Int × Kernel :=
  (invalidText.length, s.print (printfOut (cstr invalidText) st).chars)

/-- The label `fail`. -/
def trapFail (u : TrapIn) : Trap :=
  .iret (retReg (s.syscallHandler u.words).1) (s.syscallHandler u.words).2

/-- The label `fail_param`. -/
def trapFailParam : Trap := .iret 0xFFFFFFFF s

/-- `syscall_read`. -/
def trapRead (r : Regs) (u : TrapIn) : Trap :=
  if r.edx = 0xFFFFFFFF then s.trapFail u
  else if r.ecx = 0xFFFFFFFF then s.trapFail u
  else if r.ebx = 0xFFFFFFFF then s.trapFail u
  else .ofResult (s.sysRead (i32 r.ebx.toNat) r.ecx.toNat u.stack u.atEcx (i32 r.edx.toNat))

/-- `syscall_vidmap`. `vid_map` returns 0. -/
def trapVidmap (r : Regs) : Trap :=
  match s.sysVidmap r.ebx.toNat with
  | .ret s' => .iret (if vidmapAccepts r.ebx.toNat then 0 else 0xFFFFFFFF) s'
  | .fault s' => .fault s'

/-- `jump_table`. -/
def jumpTable (r : Regs) (u : TrapIn) : List Trap :=
  [match s.halt (syscallHalt r.ebx) u.xs with
    | some h => .leaves h.state
    | none => .stuck,
   match s.execute u.atEbx u.x with
    | .user s' => .leaves s'
    | .fail s' => .iret 0xFFFFFFFF s',
   s.trapRead r u,
   .ofResult (s.sysWrite (i32 r.ebx.toNat) r.ecx.toNat u.atEcx (i32 r.edx.toNat)),
   .iret (retReg (s.sysOpen u.atEbx).1) (s.sysOpen u.atEbx).2,
   .iret (retReg (s.sysClose (i32 r.ebx.toNat)).1) (s.sysClose (i32 r.ebx.toNat)).2,
   .ofResult (some (s.sysGetargs u.after u.atEbx (i32 r.ecx.toNat))),
   s.trapVidmap r]

/-- `syscall_handler_asm`. -/
def int80 (r : Regs) (u : TrapIn) : Trap :=
  if i32 r.eax.toNat ≤ 0 then s.trapFailParam
  else if 8 < i32 r.eax.toNat then s.trapFailParam
  else (s.jumpTable r u).getD (r.eax - 1).toNat .stuck

end Kernel

/-! ## Refused calls -/

namespace Regs

variable (r : Regs)

/-- `syscall_read` refuses the call itself. -/
def StubRefuses : Prop :=
  r.eax = 3 ∧ (r.ebx = 0xFFFFFFFF ∨ r.ecx = 0xFFFFFFFF ∨ r.edx = 0xFFFFFFFF)

/-- The descriptor in EBX is below 0 or above 7. -/
def BadFd : Prop := i32 r.ebx.toNat < 0 ∨ 7 < i32 r.ebx.toNat

/-- The calls that are to be refused. -/
inductive Refused : Prop
  | number : i32 r.eax.toNat < 1 ∨ 8 < i32 r.eax.toNat → Refused
  | descriptor : r.eax = 3 ∨ r.eax = 4 ∨ r.eax = 6 → r.BadFd → Refused
  | buffer : r.eax = 3 ∨ r.eax = 4 → r.ecx = 0 → Refused
  | stub : r.StubRefuses → Refused

end Regs

section Traps

variable {s : Kernel} {r : Regs} {u : TrapIn}

/-- The entry selects the routine by its number. -/
theorem int80_call {n : Nat} (h : r.eax = UInt32.ofNat (n + 1)) (hn : n < 8) :
    s.int80 r u = (s.jumpTable r u).getD n .stuck := by
  have hreg : i32 r.eax.toNat = (n + 1 : Nat) ∧ (r.eax - 1).toNat = n := by
    rw [h]
    interval_cases n <;> decide
  unfold Kernel.int80
  rw [hreg.1, if_neg (by omega), if_neg (by omega), hreg.2]

theorem int80_number (h : i32 r.eax.toNat < 1 ∨ 8 < i32 r.eax.toNat) :
    s.int80 r u = .iret 0xFFFFFFFF s := by
  unfold Kernel.int80
  by_cases h0 : i32 r.eax.toNat ≤ 0
  · rw [if_pos h0]
    rfl
  · rw [if_neg h0, if_pos (by omega)]
    rfl

theorem retReg_neg_one : retReg (-1) = 0xFFFFFFFF := by decide

/-- `fail` prints, and EAX is the number of bytes of the text. -/
theorem trapFail_eq : s.trapFail u = .iret 27 (s.print invalidText) := by
  have hlen : retReg invalidText.length = 27 := by decide
  have hout : printfOut (cstr invalidText) u.words = ⟨invalidText, false⟩ := by
    have hall : invalidText.all (fun b => b ≠ 0 ∧ b ≠ ch '%') = true := by decide
    refine printfOut_literal (fun i _ => rfl) rfl (fun b hb => ?_) (by decide)
    exact of_decide_eq_true (List.all_eq_true.mp hall b hb)
  rw [Kernel.trapFail, Kernel.syscallHandler, hlen, hout]

/-- `syscall_read` on arguments that it refuses. -/
theorem trapRead_refuses (h : r.StubRefuses) : s.trapRead r u = .iret 27 (s.print invalidText) := by
  obtain ⟨-, hreg⟩ := h
  unfold Kernel.trapRead
  rw [trapFail_eq]
  split_ifs with h1 h2 h3
  · rfl
  · rfl
  · rfl
  · rcases hreg with hreg | hreg | hreg <;> contradiction

/-- The C wrappers refuse a bad descriptor and a NULL buffer, and change nothing. -/
theorem sysRead_refuses {fd : Int} {buf : Nat} (h : (fd < 0 ∨ 7 < fd) ∨ buf = 0)
    (stack mem : Nat → UInt8) (n : Int) : s.sysRead fd buf stack mem n = some ⟨-1, mem, s⟩ := by
  have ht : s.readTarget fd buf = .reject := by
    unfold Kernel.readTarget
    by_cases hfd : fd < 0 ∨ fd ≥ 6 ∨ fd = 1
    · rw [if_pos hfd]
    · rw [if_neg hfd, if_pos (by omega)]
  rw [Kernel.sysRead, ht]

theorem sysWrite_refuses {fd : Int} {buf : Nat} (h : (fd < 0 ∨ 7 < fd) ∨ buf = 0)
    (mem : Nat → UInt8) (n : Int) : s.sysWrite fd buf mem n = some ⟨-1, mem, s⟩ := by
  have ht : s.writeTarget fd buf = .reject := by
    unfold Kernel.writeTarget
    by_cases hfd : fd < 0 ∨ fd ≥ 6 ∨ fd = 0
    · rw [if_pos hfd]
    · rw [if_neg hfd, if_pos (by omega)]
  rw [Kernel.sysWrite, ht]

theorem sysClose_refuses {fd : Int} (h : fd < 0 ∨ 7 < fd) : s.sysClose fd = (-1, s) := by
  unfold Kernel.sysClose
  rw [if_pos (by omega)]

/-- `read` with a bad descriptor or a NULL buffer. -/
theorem int80_read (h3 : r.eax = 3) (h : r.BadFd ∨ r.ecx = 0) (hs : ¬ r.StubRefuses) :
    s.int80 r u = .iret 0xFFFFFFFF s := by
  have hargs : ¬ (r.ebx = 0xFFFFFFFF ∨ r.ecx = 0xFFFFFFFF ∨ r.edx = 0xFFFFFFFF) :=
    fun ha => hs ⟨h3, ha⟩
  simp only [not_or] at hargs
  have hbad : (i32 r.ebx.toNat < 0 ∨ 7 < i32 r.ebx.toNat) ∨ r.ecx.toNat = 0 := by
    refine h.imp id fun h0 => ?_
    rw [h0]
    rfl
  rw [int80_call (n := 2) h3 (by decide)]
  show s.trapRead r u = _
  rw [Kernel.trapRead, if_neg hargs.2.2, if_neg hargs.2.1, if_neg hargs.1, sysRead_refuses hbad,
    Trap.ofResult, retReg_neg_one]

/-- `write` with a bad descriptor or a NULL buffer. -/
theorem int80_write (h4 : r.eax = 4) (h : r.BadFd ∨ r.ecx = 0) :
    s.int80 r u = .iret 0xFFFFFFFF s := by
  have hbad : (i32 r.ebx.toNat < 0 ∨ 7 < i32 r.ebx.toNat) ∨ r.ecx.toNat = 0 := by
    refine h.imp id fun h0 => ?_
    rw [h0]
    rfl
  rw [int80_call (n := 3) h4 (by decide)]
  show Trap.ofResult (s.sysWrite _ _ _ _) = _
  rw [sysWrite_refuses hbad, Trap.ofResult, retReg_neg_one]

/-- `close` with a bad descriptor. -/
theorem int80_close (h6 : r.eax = 6) (h : r.BadFd) : s.int80 r u = .iret 0xFFFFFFFF s := by
  rw [int80_call (n := 5) h6 (by decide)]
  show Trap.iret (retReg (s.sysClose _).1) (s.sysClose _).2 = _
  rw [sysClose_refuses h, retReg_neg_one]

/-- **Refused calls.** A call that is to be refused comes back with -1 and changes nothing,
exactly if it is not one that `syscall_read` itself refuses. -/
theorem refused_iff (s : Kernel) (r : Regs) (u : TrapIn) :
    (r.Refused → s.int80 r u = .iret 0xFFFFFFFF s) ↔ ¬ r.StubRefuses := by
  constructor
  · intro h hs
    have hread : s.int80 r u = .iret 27 (s.print invalidText) := by
      rw [int80_call (n := 2) hs.1 (by decide)]
      exact trapRead_refuses hs
    rw [h (.stub hs)] at hread
    exact absurd (Trap.iret.inj hread).1 (by decide)
  · intro hs hr
    cases hr with
    | number h => exact int80_number h
    | descriptor hcall hfd =>
      rcases hcall with h | h | h
      · exact int80_read h (.inl hfd) hs
      · exact int80_write h (.inl hfd)
      · exact int80_close h hfd
    | buffer hcall hbuf =>
      rcases hcall with h | h
      · exact int80_read h (.inr hbuf) hs
      · exact int80_write h (.inr hbuf)
    | stub h => exact absurd h hs

/-- A `read` with descriptor -1 comes back with 27 and prints. -/
theorem read_neg_one_returns_27 :
    ∃ s, kernel.run (boot sampleBoot) sampleLaunches = some s ∧
      ∀ u, Regs.Refused ⟨3, 0xFFFFFFFF, 0x08048000, 31⟩ ∧
        s.int80 ⟨3, 0xFFFFFFFF, 0x08048000, 31⟩ u = .iret 27 (s.print invalidText) ∧
        s.int80 ⟨3, 0xFFFFFFFF, 0x08048000, 31⟩ u ≠ .iret 0xFFFFFFFF s := by
  have hr : (kernel.run (boot sampleBoot) sampleLaunches).isSome := by decide +kernel
  obtain ⟨s, hs⟩ := Option.isSome_iff_exists.mp hr
  refine ⟨s, hs, fun u => ?_⟩
  have hstub : Regs.StubRefuses ⟨3, 0xFFFFFFFF, 0x08048000, 31⟩ := ⟨rfl, .inl rfl⟩
  have hret : s.int80 ⟨3, 0xFFFFFFFF, 0x08048000, 31⟩ u = .iret 27 (s.print invalidText) := by
    rw [int80_call (n := 2) rfl (by decide)]
    exact trapRead_refuses hstub
  refine ⟨.stub hstub, hret, fun h => ?_⟩
  rw [hret] at h
  exact absurd (Trap.iret.inj h).1 (by decide)

/-! ## Traps and events -/

theorem ofResult_iret {res : Option SysResult} {eax : UInt32} {s' : Kernel}
    (h : Trap.ofResult res = .iret eax s') : res.map SysResult.state = some s' := by
  cases res with
  | none => cases h
  | some x =>
    cases h
    rfl

theorem ofResult_ne_leaves (res : Option SysResult) (s' : Kernel) :
    Trap.ofResult res ≠ .leaves s' := by
  cases res <;> exact fun h => nomatch h

theorem syscall_of_process (hp : s.HasProcess) (res : Option Kernel) : s.syscall res = res :=
  if_pos hp

/-- A number that the entry accepts. -/
theorem eax_of_number (h : ¬ (i32 r.eax.toNat < 1 ∨ 8 < i32 r.eax.toNat)) :
    ∃ n < 8, r.eax = UInt32.ofNat (n + 1) := by
  have hlt := r.eax.toNat_lt
  have hval : 1 ≤ r.eax.toNat ∧ r.eax.toNat ≤ 8 := by
    unfold i32 at h
    rw [Nat.mod_eq_of_lt hlt] at h
    split at h <;> omega
  refine ⟨r.eax.toNat - 1, by omega, ?_⟩
  rw [Nat.sub_add_cancel hval.1, UInt32.ofNat_toNat]

/-- A `read`, refused by the stub or not. -/
theorem trapRead_step {s' : Kernel} (hp : s.HasProcess)
    (h : (∃ eax, s.trapRead r u = .iret eax s') ∨ s.trapRead r u = .leaves s') :
    ∃ e, s.step e = some s' := by
  have hfail : (∃ eax, s.trapFail u = .iret eax s') ∨ s.trapFail u = .leaves s' →
      ∃ e, s.step e = some s' := by
    intro hf
    rw [trapFail_eq] at hf
    obtain ⟨_, hf⟩ | hf := hf <;> cases hf
    exact ⟨.write 1 1 (cstr invalidText) 27, syscall_of_process hp _⟩
  unfold Kernel.trapRead at h
  split_ifs at h
  · exact hfail h
  · exact hfail h
  · exact hfail h
  · obtain ⟨_, h⟩ | h := h
    · refine ⟨.read (i32 r.ebx.toNat) r.ecx.toNat u.stack u.atEcx (i32 r.edx.toNat), ?_⟩
      exact (syscall_of_process hp _).trans (ofResult_iret h)
    · exact absurd h (ofResult_ne_leaves _ _)

/-- Every trap that returns or leaves for another program is an event of the kernel; what `fail`
prints is what a `write` of that text prints. -/
theorem int80_step {s' : Kernel} (hp : s.HasProcess)
    (h : (∃ eax, s.int80 r u = .iret eax s') ∨ s.int80 r u = .leaves s') :
    ∃ e, s.step e = some s' := by
  by_cases hnum : i32 r.eax.toNat < 1 ∨ 8 < i32 r.eax.toNat
  · rw [int80_number hnum] at h
    obtain ⟨_, h⟩ | h := h <;> cases h
    exact ⟨.closeFd 0, syscall_of_process hp _⟩
  obtain ⟨n, hn, hr⟩ := eax_of_number hnum
  rw [int80_call hr hn] at h
  interval_cases n
  all_goals simp only [Kernel.jumpTable, List.getD_cons_zero, List.getD_cons_succ] at h
  · -- halt
    refine ⟨.halt r.ebx u.xs, (syscall_of_process hp _).trans ?_⟩
    cases hh : s.halt (syscallHalt r.ebx) u.xs with
    | none => rw [hh] at h; obtain ⟨_, h⟩ | h := h <;> cases h
    | some v => rw [hh] at h; obtain ⟨_, h⟩ | h := h <;> cases h; rfl
  · -- execute
    cases hx : s.execute u.atEbx u.x with
    | user v =>
      rw [hx] at h
      obtain ⟨_, h⟩ | h := h <;> cases h
      refine ⟨.execUser u.atEbx u.x, (syscall_of_process hp _).trans ?_⟩
      rw [hx]
    | fail v =>
      rw [hx] at h
      obtain ⟨_, h⟩ | h := h <;> cases h
      refine ⟨.execFail u.atEbx u.x, (syscall_of_process hp _).trans ?_⟩
      rw [hx]
  · exact trapRead_step hp h
  · -- write
    obtain ⟨_, h⟩ | h := h
    · refine ⟨.write (i32 r.ebx.toNat) r.ecx.toNat u.atEcx (i32 r.edx.toNat), ?_⟩
      exact (syscall_of_process hp _).trans (ofResult_iret h)
    · exact absurd h (ofResult_ne_leaves _ _)
  · -- open
    obtain ⟨_, h⟩ | h := h <;> cases h
    exact ⟨.openFd u.atEbx, syscall_of_process hp _⟩
  · -- close
    obtain ⟨_, h⟩ | h := h <;> cases h
    exact ⟨.closeFd (i32 r.ebx.toNat), syscall_of_process hp _⟩
  · -- getargs
    obtain ⟨_, h⟩ | h := h <;> cases h
    exact ⟨.getargs u.after u.atEbx (i32 r.ecx.toNat), syscall_of_process hp _⟩
  · -- vidmap
    refine ⟨.vidmap r.ebx.toNat, (syscall_of_process hp _).trans ?_⟩
    unfold Kernel.trapVidmap at h
    cases hv : s.sysVidmap r.ebx.toNat with
    | ret v => rw [hv] at h; obtain ⟨_, h⟩ | h := h <;> cases h; rfl
    | fault v => rw [hv] at h; obtain ⟨_, h⟩ | h := h <;> cases h

end Traps

end Mp3
