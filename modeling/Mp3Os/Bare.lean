import Mp3Os.Files

/-!
# The globals of an open apart from the rest

`Kernel.bare` erases what a `sys_open` leaves in globals: `currFD`, `currPid` and `currDentry`.
The handlers commute with it or hide it. Every event acts on the rest of the state in the same
way whatever the three hold (`step_bare`), except a `sys_read` or `sys_write`, which depends on
them through its target (`sysRead_congr`, `sysWrite_congr`).
-/

namespace Mp3

/-- The state without the globals that a `sys_open` sets. -/
def Kernel.bare (s : Kernel) : Kernel :=
  { s with
    currPid := 0
    currFD := 0
    fs := { s.fs with currDentry := ⟨Buf.zero, 0, 0⟩ } }

def Outcome.bare : Outcome → Outcome
  | .ret s => .ret s.bare
  | .fault s => .fault s.bare

def ExecResult.bare : ExecResult → ExecResult
  | .fail s => .fail s.bare
  | .user s => .user s.bare

def PitResult.bare : PitResult → PitResult
  | .user s => .user s.bare
  | .resume s esp ebp => .resume s.bare esp ebp

/-- A system call without the globals that a `sys_open` sets: what it returns, what is in the
caller's buffer, and the rest of the state. -/
def SysResult.bare (r : SysResult) : SysResult := ⟨r.ret, r.buf, r.state.bare⟩

/-! ## The handlers -/

section Handlers

variable {s : Kernel}

theorem bare_looked (f : Nat → UInt8) : (s.looked f).bare = s.bare := by
  obtain ⟨d, hd⟩ := opened_eq s.fs f
  simp only [Kernel.looked, Kernel.bare, hd]

theorem header_bare (f buf : Nat → UInt8) : s.bare.fs.header f buf = s.fs.header f buf := by
  have hl : readDentryByName s.bare.fs f = readDentryByName s.fs f := rfl
  unfold FileSys.header
  rw [hl]
  cases readDentryByName s.fs f with
  | none => rw [Option.bind_none, Option.bind_none]
  | some d =>
    have hn : s.bare.fs.numinodes = s.fs.numinodes := rfl
    have hr : readData s.bare.fs d.inodeNum 0 buf 28 = readData s.fs d.inodeNum 0 buf 28 :=
      readData_currDentry ..
    simp only [Option.bind_some, hn, hr]

theorem bare_entered (f : Nat → UInt8) (pid : Int) (x : ExecIn) :
    (s.entered f pid x).bare = (s.bare.entered f pid x).bare := by
  have h : ∀ u v : Kernel, u.bare = v.bare →
      ((u.modPcb pid fun b => { b with pcbInUse := 0 }).enterProcess pid x).bare =
        ((v.modPcb pid fun b => { b with pcbInUse := 0 }).enterProcess pid x).bare := by
    intro u v huv
    have he : ∀ w : Kernel,
        ((w.modPcb pid fun b => { b with pcbInUse := 0 }).enterProcess pid x).bare =
          ((w.bare.modPcb pid fun b => { b with pcbInUse := 0 }).enterProcess pid x) := fun _ => rfl
    rw [he, he, huv]
  exact h _ _ (by rw [bare_looked, bare_looked]; rfl)

/-- A lookup that finds its file leaves nothing of an earlier one. -/
theorem bare_started {f : Nat → UInt8} {d : Dentry} (hd : readDentryByName s.fs f = some d)
    (pid : Int) (x : ExecIn) (buf : Nat → UInt8) :
    (s.bare.started f pid x buf).bare = (s.started f pid x buf).bare := by
  have hfs : s.bare.fs.opened f = s.fs.opened f := by
    have hd' : readDentryByName s.bare.fs f = some d := hd
    unfold FileSys.opened
    rw [hd, hd']
    rfl
  have hl : s.bare.looked f = { s.looked f with currPid := 0, currFD := 0 } := by
    simp only [Kernel.looked, hfs]
    rfl
  unfold Kernel.started Kernel.entered
  rw [hl]
  rfl

/-- `execute` does not depend on what an earlier `sys_open` has left. -/
theorem bare_execute (f : Nat → UInt8) (x : ExecIn) :
    (s.execute f x).bare = (s.bare.execute f x).bare := by
  rw [execute_eq, execute_eq, header_bare, show s.bare.freePid = s.freePid from rfl]
  cases hb : s.fs.header f x.buf with
  | none => exact congrArg ExecResult.fail (by rw [bare_looked, bare_looked]; rfl)
  | some buf =>
    obtain ⟨d, hd, -⟩ := Option.bind_eq_some_iff.mp hb
    cases s.freePid with
    | none => exact congrArg ExecResult.fail (by rw [bare_looked, bare_looked]; rfl)
    | some pid =>
      dsimp only
      split
      · exact congrArg ExecResult.user (bare_started hd pid x buf).symm
      · exact congrArg ExecResult.fail (bare_entered f pid x)

theorem bare_switchTerminal (d : Int) : (s.switchTerminal d).bare = s.bare.switchTerminal d := by
  unfold Kernel.switchTerminal
  rw [apply_ite Kernel.bare, apply_ite Kernel.bare]
  rfl

theorem bare_prepareShell : s.prepareShell.bare = s.bare.prepareShell := by
  have h := bare_switchTerminal (s := s) s.pitCount
  calc s.prepareShell.bare = (s.switchTerminal s.pitCount).bare.freshScreen := rfl
    _ = s.bare.prepareShell := by rw [h]; rfl

theorem bare_reschedule : s.reschedule.bare = s.bare.reschedule := rfl

theorem bare_upKey (st : Stack) : (s.upKey st).bare = s.bare.upKey st := by
  unfold Kernel.upKey
  dsimp only
  rw [apply_ite Outcome.bare, apply_ite Outcome.bare]
  rfl

theorem bare_editKey (c : Nat) : (s.editKey c).bare = s.bare.editKey c := by
  have hret : ∀ u : Kernel, (Outcome.ret u).bare = .ret u.bare := fun _ => rfl
  have hback : s.backKey.bare = s.bare.backKey := by
    unfold Kernel.backKey
    rw [show s.bare.con = s.con from rfl, show s.bare.paging = s.paging from rfl]
    cases s.con.backspace s.paging.videoFrame <;> rfl
  have hchar : (s.charKey c).bare = s.bare.charKey c := by
    unfold Kernel.charKey
    dsimp only
    rw [apply_ite Kernel.bare]
    rfl
  unfold Kernel.editKey
  simp only [apply_ite Outcome.bare, hret, hback, bare_switchTerminal, hchar]
  rfl

theorem bare_keyboardHandler (c : Nat) (st : Stack) :
    (s.keyboardHandler c st).bare = s.bare.keyboardHandler c st := by
  unfold Kernel.keyboardHandler
  rw [show s.bare.flags = s.flags from rfl]
  cases modifierKey s.flags c with
  | some f => rfl
  | none =>
    dsimp only
    rw [show s.bare.beginKey = s.beginKey.bare from rfl, ← bare_upKey, ← bare_editKey,
      ← apply_ite Outcome.bare]
    cases (if c = 0x48 then s.beginKey.upKey st else s.beginKey.editKey c) with
    | ret u => rfl
    | fault u => rfl

/-- `pit_handler`. -/
theorem bare_pitHandler (esp ebp : UInt32) (x : ExecIn) :
    (s.pitHandler esp ebp x).bare = (s.bare.pitHandler esp ebp x).bare := by
  have hd : s.bare.deschedule esp ebp = (s.deschedule esp ebp).bare := rfl
  unfold Kernel.pitHandler
  rw [hd]
  dsimp only
  rw [show (s.deschedule esp ebp).bare.pitCount = (s.deschedule esp ebp).pitCount from rfl]
  generalize s.deschedule esp ebp = u
  split
  · have he := bare_execute (s := u.prepareShell) shellName x
    rw [bare_prepareShell] at he
    cases h₁ : u.prepareShell.execute shellName x <;>
      cases h₂ : u.bare.prepareShell.execute shellName x <;> rw [h₁, h₂] at he
    · rename_i v w
      have hvw : v.bare = w.bare := ExecResult.fail.inj he
      show v.reschedule.bare = w.reschedule.bare
      rw [bare_reschedule, bare_reschedule, hvw]
    · cases he
    · cases he
    · exact congrArg PitResult.user (ExecResult.user.inj he)
  split
  · show ({ u.switchTerminal 0 with pitCount := _ } : Kernel).reschedule.bare =
      ({ u.bare.switchTerminal 0 with pitCount := _ } : Kernel).reschedule.bare
    rw [← bare_switchTerminal]
    rfl
  · rfl

/-! ### `halt` -/

theorem bare_restart (c : Int) (xs : List ExecIn) {u v : Kernel} (h : u.bare = v.bare) :
    (Kernel.restart c u xs).map Kernel.bare = (Kernel.restart c v xs).map Kernel.bare := by
  induction xs generalizing u v with
  | nil => rfl
  | cons x xs ih =>
    have hd : ∀ w : Kernel, (((w.modPcb c fun b => { b with pcbInUse := -1 }).modTerm c fun t =>
        { t with currProcess := -1 }).print (lit ['R', 'e', 'e', '-'])).bare =
        ((w.bare.modPcb c fun b => { b with pcbInUse := -1 }).modTerm c fun t =>
          { t with currProcess := -1 }).print (lit ['R', 'e', 'e', '-']) := fun _ => rfl
    simp only [Kernel.restart]
    have hu := hd u
    have hv := hd v
    rw [h, ← hv] at hu
    generalize ((u.modPcb c fun b => { b with pcbInUse := -1 }).modTerm c fun t =>
        { t with currProcess := -1 }).print (lit ['R', 'e', 'e', '-']) = u' at hu
    generalize ((v.modPcb c fun b => { b with pcbInUse := -1 }).modTerm c fun t =>
        { t with currProcess := -1 }).print (lit ['R', 'e', 'e', '-']) = v' at hu
    have he : (u'.execute shellName x).bare = (v'.execute shellName x).bare := by
      rw [bare_execute (s := u'), bare_execute (s := v'), hu]
    cases h₁ : u'.execute shellName x <;> cases h₂ : v'.execute shellName x <;> rw [h₁, h₂] at he
    · exact ih (ExecResult.fail.inj he)
    · cases he
    · cases he
    · exact congrArg some (ExecResult.user.inj he)

theorem bare_halt (st : UInt8) (xs : List ExecIn) :
    ((s.halt st xs).map HaltResult.state).map Kernel.bare =
      ((s.bare.halt st xs).map HaltResult.state).map Kernel.bare := by
  unfold Kernel.halt
  dsimp only
  rw [show s.bare.curr = s.curr from rfl, show s.bare.pcbs = s.pcbs from rfl]
  split
  · simp only [Option.map_map]
    exact bare_restart s.curr xs (u := s) (v := s.bare) rfl
  · rfl

theorem bare_exception (v : Nat) (xs : List ExecIn) :
    (s.exception v xs).map Kernel.bare = (s.bare.exception v xs).map Kernel.bare := by
  have h := bare_halt (s := s.print (exceptionText v)) 0 xs
  by_cases hh : s.HasProcess
  · have hh' : s.bare.HasProcess := hh
    simp only [Kernel.exception, hh, hh', ↓reduceIte]
    exact h
  · have hh' : ¬ s.bare.HasProcess := hh
    simp only [Kernel.exception, hh, hh', ↓reduceIte]

/-! ### System calls -/

theorem bare_sysOpen (f : Nat → UInt8) : (s.sysOpen f).2.bare = (s.bare.sysOpen f).2.bare := by
  have hlook : readDentryByName s.bare.fs f = readDentryByName s.fs f := rfl
  have hfree : s.bare.freeFd = s.freeFd := rfl
  rw [sysOpen_eq, sysOpen_eq, hlook, hfree]
  split
  · rfl
  · have hl : (s.looked f).bare = (s.bare.looked f).bare := by rw [bare_looked, bare_looked]; rfl
    split
    · rename_i d fd _ _
      calc (s.openedAs f d fd).bare
          = (s.looked f).bare.setFd s.curr fd ((s.fdEntry s.curr fd).opened d) := rfl
        _ = (s.bare.openedAs f d fd).bare := by rw [hl]; rfl
    · exact hl

theorem bare_sysClose (fd : Int) : (s.sysClose fd).2.bare = (s.bare.sysClose fd).2.bare := by
  have hc : s.bare.Closes fd ↔ s.Closes fd := Iff.rfl
  rw [sysClose_eq, sysClose_eq]
  by_cases h : s.Closes fd
  · rw [if_pos h, if_pos (hc.mpr h)]
    rfl
  · rw [if_neg h, if_neg (fun h' => h (hc.mp h'))]
    rfl

theorem bare_terminalReadTo (mem : Nat → UInt8) (n : Int) :
    (s.terminalReadTo mem n).map SysResult.bare =
      (s.bare.terminalReadTo mem n).map SysResult.bare := by
  unfold Kernel.terminalReadTo Kernel.terminalRead
  rw [show s.bare.kbd = s.kbd from rfl]
  by_cases hw : s.ReadWaits
  · have hw' : s.bare.ReadWaits := hw
    rw [if_pos hw, if_pos hw']
  · have hw' : ¬ s.bare.ReadWaits := hw
    rw [if_neg hw, if_neg hw']
    dsimp only
    cases argScan (stripped s.kbd.bufKb) 128 0
        ⟨Buf.zero, -1, 0, if 128 < n then 128 else n⟩ with
    | none => rfl
    | some r =>
      simp only [Option.bind_some]
      split <;> rfl

theorem bare_sysGetargs (after mem : Nat → UInt8) (n : Int) :
    (s.sysGetargs after mem n).state.bare = (s.bare.sysGetargs after mem n).state := by
  unfold Kernel.sysGetargs
  rw [show s.bare.storeargs = s.storeargs from rfl]
  dsimp only
  split <;> rfl

theorem bare_storeWord (va value : Nat) :
    (s.storeWord va value).map Kernel.bare = s.bare.storeWord va value := by
  unfold Kernel.storeWord
  generalize ([0, 1, 2, 3] : List Nat) = l
  induction l generalizing s with
  | nil => rfl
  | cons i l ih =>
    simp only [List.foldlM_cons, Option.bind_eq_bind]
    rw [show s.bare.paging = s.paging from rfl]
    cases s.paging.translate false ((va + i) % 4294967296) with
    | none => rfl
    | some pa =>
      simp only [Option.map_some, Option.bind_some]
      rw [ih]
      congr 1
      split <;> rfl

theorem bare_sysVidmap (a : Nat) : (s.sysVidmap a).bare = s.bare.sysVidmap a := by
  unfold Kernel.sysVidmap
  split
  · have h := bare_storeWord (s := s.vidMapped a) a (138412032 + s.curTerminal.toNat * 4096)
    rw [show (s.vidMapped a).bare = s.bare.vidMapped a from rfl] at h
    unfold Kernel.vidMap
    dsimp only
    rw [show (s.bare.vidMapped a).curTerminal = s.curTerminal from rfl,
      show (s.vidMapped a).curTerminal = s.curTerminal from rfl, ← h]
    cases (s.vidMapped a).storeWord a (138412032 + s.curTerminal.toNat * 4096) <;> rfl
  · rfl

theorem bare_syscall (r r' : Option Kernel) (h : r.map Kernel.bare = r'.map Kernel.bare) :
    (s.syscall r).map Kernel.bare = (s.bare.syscall r').map Kernel.bare := by
  by_cases hh : s.HasProcess
  · have hh' : s.bare.HasProcess := hh
    simp only [Kernel.syscall, hh, hh', ↓reduceIte, h]
  · have hh' : ¬ s.bare.HasProcess := hh
    simp only [Kernel.syscall, hh, hh', ↓reduceIte]

end Handlers

/-! ## The two ends of a tick and of an `execute` -/

/-- The state a tick resumes a process in. -/
def PitResult.resumed : PitResult → Option Kernel
  | .resume s _ _ => some s
  | .user _ => none

/-- The state a tick starts a shell in. -/
def PitResult.launched : PitResult → Option Kernel
  | .resume _ _ _ => none
  | .user s => some s

/-- The state an `execute` enters user mode in. -/
def ExecResult.entered : ExecResult → Option Kernel
  | .user s => some s
  | .fail _ => none

/-- The state a failed `execute` returns in. -/
def ExecResult.failed : ExecResult → Option Kernel
  | .user _ => none
  | .fail s => some s

theorem PitResult.bare_resumed (r : PitResult) :
    r.resumed.map Kernel.bare = r.bare.resumed := by cases r <;> rfl

theorem PitResult.bare_launched (r : PitResult) :
    r.launched.map Kernel.bare = r.bare.launched := by cases r <;> rfl

theorem ExecResult.bare_entered (r : ExecResult) :
    r.entered.map Kernel.bare = r.bare.entered := by cases r <;> rfl

theorem ExecResult.bare_failed (r : ExecResult) :
    r.failed.map Kernel.bare = r.bare.failed := by cases r <;> rfl

/-! ## The events -/

/-- The event is a `sys_read` or a `sys_write`. -/
def Event.Transfers : Event → Prop
  | .read .. | .write .. => True
  | _ => False

namespace Kernel

variable (s : Kernel)

/-- `sys_read` once its target is known. -/
def serveRead (t : Target) (fd : Int) (stack mem : Nat → UInt8) (nbytes : Int) :
    Option SysResult :=
  match t with
  | .reject => some ⟨-1, mem, s⟩
  | .terminal => s.terminalReadTo mem nbytes
  | .call none => none
  | .call (some op) => s.opRead op fd stack mem nbytes

/-- `sys_write` once its target is known. -/
def serveWrite (t : Target) (mem : Nat → UInt8) (nbytes : Int) : Option SysResult :=
  match t with
  | .reject => some ⟨-1, mem, s⟩
  | .terminal => some (s.terminalWriteFrom mem nbytes)
  | .call none => none
  | .call (some op) => some (s.opWrite op mem nbytes)

end Kernel

section Events

variable {s u v : Kernel} {e : Event}

theorem sysRead_eq (fd : Int) (buf : Nat) (stack mem : Nat → UInt8) (n : Int) :
    s.sysRead fd buf stack mem n = s.serveRead (s.readTarget fd buf) fd stack mem n := rfl

theorem sysWrite_eq (fd : Int) (buf : Nat) (mem : Nat → UInt8) (n : Int) :
    s.sysWrite fd buf mem n = s.serveWrite (s.writeTarget fd buf) mem n := rfl

/-- What a transfer does depends on the globals through its target only. -/
theorem bare_serveRead {t : Target} {fd : Int} (h : ∀ op, t = .call op → -1 < fd)
    (stack mem : Nat → UInt8) (n : Int) :
    (s.serveRead t fd stack mem n).map SysResult.bare =
      (s.bare.serveRead t fd stack mem n).map SysResult.bare := by
  cases t with
  | reject => rfl
  | terminal => exact bare_terminalReadTo mem n
  | call op =>
    cases op with
    | none => rfl
    | some op =>
      cases op with
      | rtc => rfl
      | dir =>
        unfold Kernel.serveRead Kernel.opRead dirRead readDentryByIndex
        dsimp only
        rw [show s.bare.fs.curfile = s.fs.curfile from rfl,
          show s.bare.fs.numdentries = s.fs.numdentries from rfl]
        split <;> rfl
      | file =>
        unfold Kernel.serveRead Kernel.opRead Kernel.fileRead
        dsimp only
        rw [show s.bare.fs = { s.fs with currDentry := ⟨Buf.zero, 0, 0⟩ } from rfl,
          if_pos (h _ rfl), if_pos (h _ rfl)]
        simp only [readData_currDentry]
        rfl
      | terminal => exact bare_terminalReadTo mem n

theorem bare_serveWrite (t : Target) (mem : Nat → UInt8) (n : Int) :
    (s.serveWrite t mem n).map SysResult.bare =
      (s.bare.serveWrite t mem n).map SysResult.bare := by
  cases t with
  | call op =>
    cases op with
    | none => rfl
    | some op => cases op <;> rfl
  | _ => rfl

/-- **No other event depends on what a `sys_open` has left in the globals.** -/
theorem step_bare (h : ¬ e.Transfers) :
    (s.step e).map Kernel.bare = (s.bare.step e).map Kernel.bare := by
  cases e with
  | tick esp ebp x =>
    refine (PitResult.bare_resumed _).trans ?_
    rw [bare_pitHandler]
    exact (PitResult.bare_resumed _).symm
  | tickLaunch esp ebp x =>
    refine (PitResult.bare_launched _).trans ?_
    rw [bare_pitHandler]
    exact (PitResult.bare_launched _).symm
  | key c st =>
    have hk := bare_keyboardHandler (s := s) c.toNat st
    simp only [Kernel.step, ← hk]
    cases s.keyboardHandler c.toNat st <;> rfl
  | keyFault c st xs =>
    have hk := bare_keyboardHandler (s := s) c.toNat st
    simp only [Kernel.step, ← hk]
    cases s.keyboardHandler c.toNat st with
    | ret w => rfl
    | fault w => exact bare_exception 14 xs
  | execUser f x =>
    refine bare_syscall _ _ ((ExecResult.bare_entered _).trans ?_)
    rw [bare_execute]
    exact (ExecResult.bare_entered _).symm
  | execFail f x =>
    refine bare_syscall _ _ ((ExecResult.bare_failed _).trans ?_)
    rw [bare_execute]
    exact (ExecResult.bare_failed _).symm
  | halt ebx xs => exact bare_syscall _ _ (bare_halt _ xs)
  | exception n xs => exact bare_exception n xs
  | openFd f => exact bare_syscall _ _ (congrArg some (bare_sysOpen f))
  | closeFd fd => exact bare_syscall _ _ (congrArg some (bare_sysClose fd))
  | read fd buf stack mem n => exact absurd trivial h
  | write fd buf mem n => exact absurd trivial h
  | getargs after mem n =>
    have hs := bare_sysGetargs (s := s.bare) after mem n
    exact bare_syscall _ _ (congrArg some ((bare_sysGetargs after mem n).trans hs.symm))
  | vidmap a =>
    have hv := bare_sysVidmap (s := s) a
    refine bare_syscall _ _ ?_
    rw [← hv]
    cases s.sysVidmap a <;> rfl
  | vidmapFault a xs =>
    have hv := bare_sysVidmap (s := s) a
    refine bare_syscall _ _ ?_
    rw [← hv]
    cases s.sysVidmap a with
    | ret w => rfl
    | fault w => exact bare_exception 14 xs

theorem readTarget_call_pos {fd : Int} {buf : Nat} {op : Option Fop}
    (h : s.readTarget fd buf = .call op) : -1 < fd := by
  have := (readTarget_call h).1
  omega

/-- Reads with the same target have the same result. -/
theorem sysRead_congr {fd : Int} {buf : Nat} (h : u.bare = v.bare)
    (ht : u.readTarget fd buf = v.readTarget fd buf) (stack mem : Nat → UInt8) (n : Int) :
    (u.sysRead fd buf stack mem n).map SysResult.bare =
      (v.sysRead fd buf stack mem n).map SysResult.bare := by
  rw [sysRead_eq, sysRead_eq, bare_serveRead fun _ => readTarget_call_pos,
    bare_serveRead (s := v) fun _ => readTarget_call_pos, h, ht]

theorem sysWrite_congr {fd : Int} {buf : Nat} (h : u.bare = v.bare)
    (ht : u.writeTarget fd buf = v.writeTarget fd buf) (mem : Nat → UInt8) (n : Int) :
    (u.sysWrite fd buf mem n).map SysResult.bare =
      (v.sysWrite fd buf mem n).map SysResult.bare := by
  rw [sysWrite_eq, sysWrite_eq, bare_serveWrite, bare_serveWrite (s := v), h, ht]

end Events

end Mp3
