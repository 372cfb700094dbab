import Mp3Os.Args
import Mp3Os.Files
import Mp3Os.Lib.Client
import Mp3Os.Status

/-!
# System calls as user programs see them (`ece391syscall.h`)

A program makes a call with a buffer and goes on with the return value and the buffer.
`processService p` is the kernel as the service of process `p`: a call can be made while `p` is the
process of the scheduled terminal, and each call is an event of the kernel (`serve_step`). An
`execute` that reaches user mode blocks, and returns `ret_val` once `p` runs again.

`NotBy p` are the events of the others: interrupts, and calls and exceptions of other processes.
-/

namespace Mp3

/-- The calls that the programs make, each with the memory at the buffer it passes. -/
inductive UserCall where
  | execute (command : Nat → UInt8)
  | read (fd : Int) (mem : Nat → UInt8) (nbytes : Int)
  | write (fd : Int) (mem : Nat → UInt8) (nbytes : Int)
  | openFd (filename : Nat → UInt8)
  | closeFd (fd : Int)
  | getargs (mem : Nat → UInt8) (nbytes : Int)

/-- What a program gets back: the value, and the memory at its buffer. -/
structure UserResult where
  ret : Int
  mem : Nat → UInt8

/-- What a call takes from the machine: the address of the buffer, which is a local of the program
and so not NULL, and what the routines of the kernel find on their stack and behind `args`. -/
structure UserIn where
  addr : Nat
  addr_ne : addr ≠ 0
  stack : Nat → UInt8
  after : Nat → UInt8
  exec : ExecIn

theorem user_addr_ne : (0x8000000 : Nat) ≠ 0 := by decide

/-- A call with its buffer where the programs are loaded. -/
def sampleIn : UserIn := ⟨0x8000000, user_addr_ne, fun _ => 0, fun _ => 0, sampleExec⟩

/-- The bytes that a call writes to the terminal. -/
def UserCall.output : UserCall → List UInt8
  | .write fd mem n => if fd = 1 then (List.range n.toNat).map mem else []
  | _ => []

/-- What some calls have written. -/
def written (log : List (Kernel × UserCall)) : List UInt8 := log.flatMap fun c => c.2.output

/-- The event of a call; an `execute` has one for each of its ends. -/
def UserCall.event (x : UserIn) (blocks : Bool) : UserCall → Event
  | .execute command => if blocks then .execUser command x.exec else .execFail command x.exec
  | .read fd mem nbytes => .read fd x.addr x.stack mem nbytes
  | .write fd mem nbytes => .write fd x.addr mem nbytes
  | .openFd filename => .openFd filename
  | .closeFd fd => .closeFd fd
  | .getargs mem nbytes => .getargs x.after mem nbytes

namespace Kernel

variable (s : Kernel)

/-- What a call does: the result, if it returns, and the state. -/
def serve (x : UserIn) : UserCall → Option (Option UserResult × Kernel)
  | .execute command =>
    match s.execute command x.exec with
    | .user s' => some (none, s')
    | .fail s' => some (some ⟨-1, command⟩, s')
  | .read fd mem nbytes =>
    (s.sysRead fd x.addr x.stack mem nbytes).map fun r => (some ⟨r.ret, r.buf⟩, r.state)
  | .write fd mem nbytes =>
    (s.sysWrite fd x.addr mem nbytes).map fun r => (some ⟨r.ret, r.buf⟩, r.state)
  | .openFd filename =>
    let r := s.sysOpen filename
    some (some ⟨r.1, filename⟩, r.2)
  | .closeFd fd =>
    let r := s.sysClose fd
    some (some ⟨r.1, fun _ => 0⟩, r.2)
  | .getargs mem nbytes =>
    let r := s.sysGetargs x.after mem nbytes
    some (some ⟨r.ret, r.buf⟩, r.state)

/-- What an `execute` returns when its child has ended. -/
def wake : UserCall → Option UserResult
  | .execute command => some ⟨s.retVal, command⟩
  | _ => none

/-- The process `p` is the one that can make a call. -/
def RunsProcess (p : Int) : Prop := s.HasProcess ∧ s.curr = p

instance (p : Int) : Decidable (s.RunsProcess p) := inferInstanceAs (Decidable (_ ∧ _))

end Kernel

/-- The kernel as the service of process `p`. -/
def processService (p : Int) : Service Kernel UserIn UserCall UserResult where
  serve s x q := if s.RunsProcess p then s.serve x q else none
  wake s q := if s.RunsProcess p then s.wake q else none

instance : (e : Event) → Decidable e.Interrupts
  | .tick .. | .tickLaunch .. | .key .. => isTrue trivial
  | .keyFault .. | .execUser .. | .execFail .. | .halt .. | .exception .. | .openFd .. | .closeFd ..
  | .read .. | .write .. | .getargs .. | .vidmap .. | .vidmapFault .. => isFalse id

instance : (e : Event) → Decidable e.LeavesFiles
  | .openFd .. | .closeFd .. => isFalse id
  | .tick .. | .tickLaunch .. | .key .. | .keyFault .. | .execUser .. | .execFail .. | .halt ..
  | .exception .. | .read .. | .write .. | .getargs .. | .vidmap .. | .vidmapFault .. =>
    isTrue trivial

/-- The event is an interrupt, or is made by another process than `p`. -/
def Kernel.NotBy (p : Int) (s : Kernel) (e : Event) : Prop := e.Interrupts ∨ s.curr ≠ p

instance (p : Int) (s : Kernel) (e : Event) : Decidable (s.NotBy p e) :=
  inferInstanceAs (Decidable (_ ∨ _))

@[simp] theorem output_read (fd : Int) (mem : Nat → UInt8) (n : Int) :
    (UserCall.read fd mem n).output = [] := rfl

theorem written_append (log : List (Kernel × UserCall)) (s : Kernel) (q : UserCall) :
    written (log ++ [(s, q)]) = written log ++ q.output := by
  simp [written]

section Serve

variable {s s' : Kernel} {p : Int} {x : UserIn} {q : UserCall} {r : Option UserResult}

theorem processService_serve : (processService p).serve s x q = some (r, s') ↔
    s.RunsProcess p ∧ s.serve x q = some (r, s') := by
  simp only [processService, Option.ite_none_right_eq_some]

theorem runsProcess_of_serve {u : Option UserResult × Kernel}
    (h : (processService p).serve s x q = some u) : s.RunsProcess p := by
  obtain ⟨r, s'⟩ := u
  exact (processService_serve.mp h).1

theorem processService_wake {r : UserResult} : (processService p).wake s q = some r ↔
    s.RunsProcess p ∧ s.wake q = some r := by
  simp only [processService, Option.ite_none_right_eq_some]

/-- **A call is an event of the kernel.** -/
theorem serve_step (hs : s.RunsProcess p) (h : s.serve x q = some (r, s')) :
    s.step (q.event x r.isNone) = some s' := by
  have hcall : ∀ o, s.syscall o = o := fun o => if_pos hs.1
  cases q with
  | execute command =>
    simp only [Kernel.serve] at h
    split at h
    · rename_i hx
      cases h
      simp only [UserCall.event, Option.isNone_none, ↓reduceIte, Kernel.step, hcall, hx]
    · rename_i hx
      cases h
      simp only [UserCall.event, Option.isNone_some, Bool.false_eq_true, ↓reduceIte, Kernel.step,
        hcall, hx]
  | read fd mem nbytes =>
    obtain ⟨u, hu, h⟩ := Option.map_eq_some_iff.mp h
    cases h
    simp only [UserCall.event, Kernel.step, hcall, hu, Option.map_some]
  | write fd mem nbytes =>
    obtain ⟨u, hu, h⟩ := Option.map_eq_some_iff.mp h
    cases h
    simp only [UserCall.event, Kernel.step, hcall, hu, Option.map_some]
  | openFd filename =>
    cases h
    simp only [UserCall.event, Kernel.step, hcall]
  | closeFd fd =>
    cases h
    simp only [UserCall.event, Kernel.step, hcall]
  | getargs mem nbytes =>
    cases h
    simp only [UserCall.event, Kernel.step, hcall]

/-- Only an `execute` blocks. -/
theorem execute_of_blocks (h : s.serve x q = some (none, s')) : ∃ command, q = .execute command := by
  cases q with
  | execute command => exact ⟨command, rfl⟩
  | read fd mem nbytes | write fd mem nbytes =>
    obtain ⟨u, hu, h⟩ := Option.map_eq_some_iff.mp h
    cases h
  | openFd filename | closeFd fd | getargs mem nbytes => cases h

end Serve

/-! ## What the others leave -/

section Others

variable {s s' : Kernel} {p : Int} {e : Event}

theorem notBy_curr (hn : s.NotBy p e) (he : ¬ e.Interrupts) : s.curr ≠ p := hn.resolve_left he

/-- **The others leave the descriptor table of `p`.** -/
theorem notBy_table (hn : s.NotBy p e) (h : s.step e = some s') (i : Int) :
    s'.fdEntry p i = s.fdEntry p i := by
  cases filesStep h with
  | same _ _ hf => exact congrFun (congrFun (congrArg Files.table hf) p) i
  | @openFd f _ _ hs =>
    have hne := notBy_curr hn id
    rw [hs, sysOpen_eq]
    split
    · rfl
    · split
      · rw [fdEntry_openedAs, if_neg fun he => hne he.1.symm]
      · rfl
  | closeFd _ hs =>
    have hne := notBy_curr hn id
    rw [hs, sysClose_eq]
    split
    · rw [fdEntry_closed, if_neg fun he => hne he.1.symm]
    · rfl
  | fileRead _ _ hs =>
    have hne := notBy_curr hn id
    rw [hs]
    unfold Kernel.fileRead
    dsimp only
    split
    · rw [fdEntry_setFd, if_neg fun he => hne he.1.symm]
    · rfl
  | reap he _ _ hf =>
    have hne : s.curr ≠ p := notBy_curr hn (by cases e <;> first | exact id | cases he)
    have hc : s'.fdEntry p i = (s.files.clear s.curr).table p i :=
      congrFun (congrFun (congrArg Files.table hf) p) i
    rw [hc, Files.clear_table, if_neg fun he => hne he.1.symm]
    rfl

/-- Without an open or a close the globals of `syscall.c` stay. -/
theorem leavesFiles_globals (hl : e.LeavesFiles) (h : s.step e = some s') :
    s'.currPid = s.currPid ∧ s'.currFD = s.currFD := by
  cases filesStep h with
  | same _ _ hf => exact ⟨congrArg Files.currPid hf, congrArg Files.currFD hf⟩
  | openFd => exact hl.elim
  | closeFd => exact hl.elim
  | fileRead _ _ hs =>
    rw [hs]
    unfold Kernel.fileRead
    dsimp only
    split <;> exact ⟨rfl, rfl⟩
  | reap _ _ _ hf => exact ⟨congrArg Files.currPid hf, congrArg Files.currFD hf⟩

end Others

end Mp3
