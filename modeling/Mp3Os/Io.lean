import Mp3Os.Procs

/-!
# The terminals apart from the processes

`Kernel.io` erases what belongs to processes, files and user memory, and keeps what belongs to
the terminals: the screen, the lines, the cursors, the video mappings. The functions that work
on terminals commute with it, and the ones that work on processes disappear under it:
`execute` leaves `io` as it is (`execute_io`), and a `halt` prints (`halt_io`).

`ioStep` says what every event does to `io`. The properties of screens, keyboards and video
mappings are proved over it.
-/

namespace Mp3

/-- A terminal without what it knows of processes. -/
def Terminal.io (t : Terminal) : Terminal :=
  { t with shellPid := 0, screenStart := 0, saveTss := ⟨0, 0⟩, currProcess := 0 }

/-- The state without processes, files and user memory. -/
def Kernel.io (s : Kernel) : Kernel :=
  { s with
    fs := FileSys.filesysInit fun _ => 0
    pcbs := fun _ => Pcb.zeroed
    currPid := 0
    currFD := 0
    terminals := fun t => (s.terminals t).io
    tss := ⟨0, 0⟩
    paging := { s.paging with pageDirectory := Function.update s.paging.pageDirectory 32 0 }
    rtc := ⟨0, 0⟩
    umem := fun _ => 0
    firstInstruct := 0 }

/-- The outcome of a handler without processes, files and user memory. -/
def Outcome.io : Outcome → Outcome
  | .ret s => .ret s.io
  | .fault s => .fault s.io

namespace Kernel

variable (s : Kernel)

/-- The start of `pit_handler`, for the terminals. -/
def leaveTerminal : Kernel :=
  { s.countInterrupt.saveScreen s.curTerminal with curTerminal := (s.curTerminal + 1) % 3 }

/-- The end of `pit_handler`, for the terminals. -/
def enterTerminal : Kernel := s.mapWindow.loadScreen s.curTerminal

end Kernel

section Erasure

variable {s : Kernel}

theorem io_modTerm {t : Int} {f : Terminal → Terminal}
    (h : (f (s.terminals t)).io = f (s.terminals t).io) :
    (s.modTerm t f).io = s.io.modTerm t f := by
  have hu : (fun u => (Function.update s.terminals t (f (s.terminals t)) u).io) =
      Function.update (fun u => (s.terminals u).io) t (f (s.terminals t).io) := by
    rw [← h]
    exact Function.comp_update Terminal.io ..
  simp only [Kernel.io, Kernel.modTerm, hu]

/-- A change that erasure hides. -/
theorem io_modTerm_hidden {t : Int} {f : Terminal → Terminal}
    (h : (f (s.terminals t)).io = (s.terminals t).io) : (s.modTerm t f).io = s.io := by
  have hu : (fun u => (Function.update s.terminals t (f (s.terminals t)) u).io) =
      fun u => (s.terminals u).io := by
    funext u
    by_cases hut : u = t
    · subst hut; simp [h]
    · simp [hut]
  simp only [Kernel.io, Kernel.modTerm, hu]

@[simp] theorem io_modPcb (q : Int) (f : Pcb → Pcb) : (s.modPcb q f).io = s.io := rfl

@[simp] theorem io_looked (fname : Nat → UInt8) : (s.looked fname).io = s.io := rfl

@[simp] theorem io_mapProcess (pid : Int) : (s.mapProcess pid).io = s.io := by
  have h : Function.update (s.mapProcess pid).paging.pageDirectory 32 0 =
      Function.update s.paging.pageDirectory 32 0 := by
    rw [mapProcess_pageDirectory]
    simp
  have h' : { (s.mapProcess pid).paging with
      pageDirectory := Function.update (s.mapProcess pid).paging.pageDirectory 32 0 } =
      { s.paging with pageDirectory := Function.update s.paging.pageDirectory 32 0 } := by
    rw [h]
    simp [Kernel.mapProcess]
  simp only [Kernel.io, h']
  rfl

theorem io_entered (fname : Nat → UInt8) (pid : Int) (x : ExecIn) :
    (s.entered fname pid x).io = s.io := by
  rw [Kernel.entered, Kernel.enterProcess, io_mapProcess, io_modTerm_hidden rfl]
  rfl

theorem io_started (fname : Nat → UInt8) (pid : Int) (x : ExecIn) (buf : Nat → UInt8) :
    (s.started fname pid x buf).io = s.io := io_entered (s := s) fname pid x

/-- `execute` does nothing to the terminals. -/
theorem execute_io {s' : Kernel} {fname : Nat → UInt8} {x : ExecIn}
    (h : s.execute fname x = .user s' ∨ s.execute fname x = .fail s') : s'.io = s.io := by
  rw [execute_eq] at h
  cases hb : s.fs.header fname x.buf with
  | none =>
    rw [hb] at h
    rcases h with h | h <;> cases h
    exact io_looked fname
  | some buf =>
    cases hp : s.freePid with
    | none =>
      rw [hb, hp] at h
      rcases h with h | h <;> cases h
      exact io_looked fname
    | some pid =>
      rw [hb, hp] at h
      simp only at h
      split at h <;> rcases h with h | h <;> cases h
      · exact io_started ..
      · exact io_entered ..

theorem io_print (text : List UInt8) : (s.print text).io = s.io.print text := rfl

/-- A `halt` prints something. -/
theorem restart_io {c : Int} {xs : List ExecIn} {s' : Kernel}
    (h : Kernel.restart c s xs = some s') : ∃ text, s'.io = s.io.print text := by
  induction xs generalizing s with
  | nil => cases h
  | cons x xs ih =>
    simp only [Kernel.restart] at h
    have hd : (((s.modPcb c fun b => { b with pcbInUse := -1 }).modTerm c fun t =>
        { t with currProcess := -1 }).print (lit ['R', 'e', 'e', '-'])).io =
        s.io.print (lit ['R', 'e', 'e', '-']) := by
      rw [io_print, io_modTerm_hidden rfl]
      rfl
    split at h
    · rename_i hu
      cases h
      exact ⟨_, (execute_io (.inl hu)).trans hd⟩
    · rename_i hu
      obtain ⟨text, ht⟩ := ih h
      refine ⟨lit ['R', 'e', 'e', '-'] ++ text, ?_⟩
      rw [ht, execute_io (.inr hu), hd]
      simp [Kernel.print, Console.putcs]

/-- A `halt` of a process with a parent prints nothing. -/
theorem halt_child_io {st : UInt8} {xs : List ExecIn} {r : HaltResult}
    (hp : (s.pcbs s.curr).parentPid ≠ -1) (h : s.halt st xs = some r) : r.state.io = s.io := by
  unfold Kernel.halt at h
  dsimp only at h
  rw [if_neg hp] at h
  cases h
  rw [HaltResult.state, io_mapProcess, io_modTerm_hidden rfl]
  rfl

theorem halt_io {st : UInt8} {xs : List ExecIn} {r : HaltResult} (h : s.halt st xs = some r) :
    ∃ text, r.state.io = s.io.print text := by
  by_cases hp : (s.pcbs s.curr).parentPid = -1
  · unfold Kernel.halt at h
    dsimp only at h
    rw [if_pos hp] at h
    obtain ⟨s', hr, rfl⟩ := Option.map_eq_some_iff.mp h
    exact restart_io hr
  · exact ⟨[], halt_child_io hp h⟩

/-- The exception of a process with a parent prints its text only. -/
theorem exception_child_io {v : Nat} {xs : List ExecIn} {s' : Kernel}
    (hp : (s.pcbs s.curr).parentPid ≠ -1) (h : s.exception v xs = some s') :
    s'.io = s.io.print (exceptionText v) := by
  unfold Kernel.exception at h
  split at h
  · obtain ⟨r, hr, rfl⟩ := Option.map_eq_some_iff.mp h
    exact halt_child_io (s := s.print (exceptionText v)) hp hr
  · cases h

theorem exception_io {v : Nat} {xs : List ExecIn} {s' : Kernel} (h : s.exception v xs = some s') :
    ∃ text, s'.io = s.io.print text := by
  unfold Kernel.exception at h
  split at h
  · obtain ⟨r, hr, rfl⟩ := Option.map_eq_some_iff.mp h
    obtain ⟨text, ht⟩ := halt_io hr
    refine ⟨exceptionText v ++ text, ?_⟩
    rw [ht, io_print]
    simp [Kernel.print, Console.putcs]
  · cases h

/-! ### Functions that work on terminals -/

theorem io_saveScreen (t : Int) : (s.saveScreen t).io = s.io.saveScreen t := io_modTerm rfl

theorem io_setEnterFlag (t v : Int) : (s.setEnterFlag t v).io = s.io.setEnterFlag t v :=
  io_modTerm rfl

theorem io_saveVisible : s.saveVisible.io = s.io.saveVisible := by
  have h : (s.modTerm s.visible fun t => t.save s.con s.kbd).io =
      s.io.modTerm s.visible fun t => t.save s.con s.kbd := io_modTerm rfl
  have ht := congrArg Kernel.terminals h
  simp only [Kernel.io, Kernel.modTerm] at ht
  simp only [Kernel.saveVisible, Kernel.io, Kernel.modTerm, ht]
  rfl

theorem io_switchTerminal (d : Int) : (s.switchTerminal d).io = s.io.switchTerminal d := by
  unfold Kernel.switchTerminal
  rw [apply_ite Kernel.io, apply_ite Kernel.io, ← io_saveVisible]
  rfl

theorem io_freshScreen : s.freshScreen.io = s.io.freshScreen := by
  have h := io_saveScreen (s := s.clearScreen) s.curTerminal
  calc s.freshScreen.io
      = { (s.clearScreen.saveScreen s.curTerminal).io with pitCount := s.pitCount + 1 } := rfl
    _ = s.io.freshScreen := by rw [h]; rfl

theorem io_prepareShell : s.prepareShell.io = s.io.prepareShell := by
  rw [Kernel.prepareShell, io_freshScreen, io_switchTerminal]
  rfl

theorem io_deschedule (esp ebp : UInt32) : (s.deschedule esp ebp).io = s.io.leaveTerminal := by
  have h : ((s.countInterrupt.saveTask esp ebp).saveScreen s.curTerminal).io =
      s.io.countInterrupt.saveScreen s.curTerminal := by
    rw [io_saveScreen, Kernel.saveTask, io_modPcb, io_modTerm_hidden rfl]
    rfl
  calc (s.deschedule esp ebp).io
      = { ((s.countInterrupt.saveTask esp ebp).saveScreen s.curTerminal).io with
          curTerminal := (s.curTerminal + 1) % 3 } := rfl
    _ = _ := by rw [h]; rfl

theorem io_reschedule {s' : Kernel} {esp ebp : UInt32} (h : s.reschedule = .resume s' esp ebp) :
    s'.io = s.io.enterTerminal := by
  simp only [Kernel.reschedule, PitResult.resume.injEq] at h
  obtain ⟨rfl, -⟩ := h
  rw [io_mapProcess]
  rfl

theorem io_upKey (st : Stack) : (s.upKey st).io = s.io.upKey st := by
  unfold Kernel.upKey
  dsimp only
  rw [apply_ite Outcome.io, apply_ite Outcome.io]
  rfl

theorem io_charKey (c : Nat) : (s.charKey c).io = s.io.charKey c := by
  unfold Kernel.charKey
  dsimp only
  rw [apply_ite Kernel.io]
  rfl

theorem io_backKey : s.backKey.io = s.io.backKey := by
  unfold Kernel.backKey
  rw [show s.io.con = s.con from rfl, show s.io.paging.videoFrame = s.paging.videoFrame from rfl]
  cases s.con.backspace s.paging.videoFrame <;> rfl

theorem io_enterKey : s.enterKey.io = s.io.enterKey := io_setEnterFlag ..

theorem io_editKey (c : Nat) : (s.editKey c).io = s.io.editKey c := by
  have hret : ∀ u : Kernel, (Outcome.ret u).io = .ret u.io := fun _ => rfl
  unfold Kernel.editKey
  simp only [apply_ite Outcome.io, hret, io_backKey, io_enterKey, io_switchTerminal, io_charKey]
  rfl

theorem io_beginKey : s.beginKey.io = s.io.beginKey := by
  have h := io_saveScreen (s := s) s.curTerminal
  calc s.beginKey.io
      = { ((s.saveScreen s.curTerminal).io.loadScreen s.visible) with
          paging := s.io.paging.mapVideoPage 0 } := rfl
    _ = s.io.beginKey := by rw [h]; rfl

theorem io_endKey : s.endKey.io = s.io.endKey := by
  have h := io_saveScreen (s := s.mapWindow) s.visible
  calc s.endKey.io = (s.mapWindow.saveScreen s.visible).io.loadScreen s.curTerminal := rfl
    _ = s.io.endKey := by rw [h]; rfl

/-- `keyboard_handler` is about terminals only. -/
theorem io_keyboardHandler (c : Nat) (st : Stack) :
    (s.keyboardHandler c st).io = s.io.keyboardHandler c st := by
  unfold Kernel.keyboardHandler
  rw [show s.io.flags = s.flags from rfl]
  cases modifierKey s.flags c with
  | some f => rfl
  | none =>
    dsimp only
    rw [← io_beginKey, ← io_upKey, ← io_editKey, ← apply_ite Outcome.io]
    cases (if c = 0x48 then s.beginKey.upKey st else s.beginKey.editKey c) with
    | ret u => exact congrArg Outcome.ret io_endKey
    | fault u => rfl

theorem io_finishRead (a : Buf 1024) : (s.finishRead a).io = s.io.finishRead a := by
  unfold Kernel.finishRead
  rw [io_setEnterFlag]
  rfl

/-- `terminal_read` is about terminals only. -/
theorem io_terminalRead {n ret : Int} {bytes : List UInt8} {s' : Kernel}
    (h : s.terminalRead n = some (ret, bytes, s')) :
    s.io.terminalRead n = some (ret, bytes, s'.io) := by
  obtain ⟨hw, count, a, hscan, h0, rfl, rfl, rfl⟩ := terminalRead_eq h
  have hw' : ¬ s.io.ReadWaits := hw
  unfold Kernel.terminalRead
  rw [if_neg hw']
  simp only [show s.io.kbd = s.kbd from rfl, hscan, Option.bind_some]
  rw [if_neg (by omega)]
  rw [io_finishRead]

end Erasure

/-! ## What an event does to the terminals -/

/-- The state after a `vid_map`, for the terminals; the store to the caller's pointer may have
reached video memory. -/
def Kernel.vidMappedIo (s : Kernel) (vram : Nat → UInt8) : Kernel :=
  { s with
    paging := s.paging.vidMapEntries s.curTerminal
    con := { s.con with vram := vram } }

/-- The event is a `vid_map`: a `sys_vidmap` whose pointer is accepted. -/
def Event.maps : Event → Prop
  | .vidmap a | .vidmapFault a _ => Kernel.vidmapAccepts a
  | _ => False

/-- What an event does to the terminals: every way in which it can end. -/
inductive IoStep (s : Kernel) : Event → Kernel → Prop
  | same {e : Event} {s' : Kernel} : ¬ e.maps → s'.io = s.io → IoStep s e s'
  | prints {e : Event} {s' : Kernel} (text : List UInt8) : ¬ e.maps →
      s'.io = s.io.print text → IoStep s e s'
  | tick {esp ebp : UInt32} {x : ExecIn} {s' : Kernel} : 3 < s.pitCount →
      s'.io = s.io.leaveTerminal.enterTerminal → IoStep s (.tick esp ebp x) s'
  | tickLast {esp ebp : UInt32} {x : ExecIn} {s' : Kernel} : s.pitCount = 3 →
      s'.io = { s.io.leaveTerminal.switchTerminal 0 with pitCount := 4 }.enterTerminal →
      IoStep s (.tick esp ebp x) s'
  | tickFail {esp ebp : UInt32} {x : ExecIn} {s' : Kernel} : s.pitCount < 3 →
      s'.io = s.io.leaveTerminal.prepareShell.enterTerminal → IoStep s (.tick esp ebp x) s'
  | tickLaunch {esp ebp : UInt32} {x : ExecIn} {s' : Kernel} : s.pitCount < 3 →
      s'.io = s.io.leaveTerminal.prepareShell → IoStep s (.tickLaunch esp ebp x) s'
  | key {c : UInt8} {st : Stack} {s' : Kernel} :
      s.io.keyboardHandler c.toNat st = .ret s'.io → IoStep s (.key c st) s'
  | keyFault {c : UInt8} {st : Stack} {xs : List ExecIn} {u s' : Kernel} (text : List UInt8) :
      s.io.keyboardHandler c.toNat st = .fault u → s'.io = u.print text →
      IoStep s (.keyFault c st xs) s'
  | read {fd : Int} {buf : Nat} {stack mem : Nat → UInt8} {n ret : Int} {bytes : List UInt8}
      {s' : Kernel} : s.io.terminalRead n = some (ret, bytes, s'.io) →
      IoStep s (.read fd buf stack mem n) s'
  | vidmap {a : Nat} {s' : Kernel} (vram : Nat → UInt8) : Kernel.vidmapAccepts a →
      s'.io = s.io.vidMappedIo vram → IoStep s (.vidmap a) s'
  | vidmapFault {a : Nat} {xs : List ExecIn} {s' : Kernel} (vram : Nat → UInt8)
      (text : List UInt8) : Kernel.vidmapAccepts a → s'.io = (s.io.vidMappedIo vram).print text →
      IoStep s (.vidmapFault a xs) s'

section Step

variable {s s' : Kernel}

theorem io_vidMapped (a : Nat) (vram umem : Nat → UInt8) :
    { s.vidMapped a with con := { s.con with vram := vram }, umem := umem }.io =
      s.io.vidMappedIo vram := by
  have ht : (fun t => ((s.vidMapped a).terminals t).io) = fun t => (s.terminals t).io :=
    congrArg Kernel.terminals (io_modTerm_hidden (s := s) (t := s.curTerminal)
      (f := fun t => { t with screenStart := a }) rfl)
  have hd : Function.update (s.paging.vidMapEntries s.curTerminal).pageDirectory 32 0 =
      (s.io.paging.vidMapEntries s.curTerminal).pageDirectory :=
    Function.update_comm (by decide) ..
  simp only [Kernel.io, ht]
  simp only [Kernel.vidMapped, hd]
  rfl

/-- The ticks that do not start a base shell. -/
theorem tick_cases {esp ebp : UInt32} {x : ExecIn} (h : s.step (.tick esp ebp x) = some s') :
    (s.pitCount < 3 ∧ s'.io = s.io.leaveTerminal.prepareShell.enterTerminal) ∨
    (s.pitCount = 3 ∧
      s'.io = { s.io.leaveTerminal.switchTerminal 0 with pitCount := 4 }.enterTerminal) ∨
    (3 < s.pitCount ∧ s'.io = s.io.leaveTerminal.enterTerminal) := by
  simp only [Kernel.step] at h
  split at h
  · rename_i hr
    cases h
    rcases Kernel.pitHandler_cases (s := s) esp ebp x with
      ⟨u, -, -, hu⟩ | ⟨u, hc, he, hu⟩ | ⟨hc, hu⟩ | ⟨hc, hu⟩ <;> rw [hr] at hu
    · cases hu
    · refine .inl ⟨hc, ?_⟩
      rw [io_reschedule hu.symm, execute_io (.inr he), io_prepareShell, io_deschedule]
    · refine .inr (.inl ⟨hc, ?_⟩)
      rw [io_reschedule hu.symm, ← io_deschedule esp ebp, ← io_switchTerminal]
      rfl
    · refine .inr (.inr ⟨hc, ?_⟩)
      rw [io_reschedule hu.symm, io_deschedule]
  · cases h

theorem ioStep_tick {esp ebp : UInt32} {x : ExecIn} (h : s.step (.tick esp ebp x) = some s') :
    IoStep s (.tick esp ebp x) s' := by
  rcases tick_cases h with ⟨hc, hi⟩ | ⟨hc, hi⟩ | ⟨hc, hi⟩
  · exact .tickFail hc hi
  · exact .tickLast hc hi
  · exact .tick hc hi

/-- A tick after the boot phase. -/
theorem tick_io {esp ebp : UInt32} {x : ExecIn} (hp : 3 < s.pitCount)
    (h : s.step (.tick esp ebp x) = some s') : s'.io = s.io.leaveTerminal.enterTerminal := by
  rcases tick_cases h with ⟨hc, -⟩ | ⟨hc, -⟩ | ⟨-, hi⟩
  · omega
  · omega
  · exact hi

/-- A tick that starts a base shell. -/
theorem tickLaunch_io {esp ebp : UInt32} {x : ExecIn}
    (h : s.step (.tickLaunch esp ebp x) = some s') :
    s.pitCount < 3 ∧ s'.io = s.io.leaveTerminal.prepareShell := by
  simp only [Kernel.step] at h
  split at h
  · cases h
  · rename_i hr
    cases h
    rcases Kernel.pitHandler_cases (s := s) esp ebp x with
      ⟨u, hc, he, hu⟩ | ⟨u, -, -, hu⟩ | ⟨-, hu⟩ | ⟨-, hu⟩ <;> rw [hr] at hu
    · cases hu
      refine ⟨hc, ?_⟩
      rw [execute_io (.inl he), io_prepareShell, io_deschedule]
    all_goals cases hu

theorem ioStep_key {c : UInt8} {st : Stack} (h : s.step (.key c st) = some s') :
    IoStep s (.key c st) s' := by
  have hk := io_keyboardHandler (s := s) c.toNat st
  simp only [Kernel.step] at h
  split at h
  · rename_i hr
    cases h
    rw [hr] at hk
    exact .key hk.symm
  · cases h

theorem ioStep_keyFault {c : UInt8} {st : Stack} {xs : List ExecIn}
    (h : s.step (.keyFault c st xs) = some s') : IoStep s (.keyFault c st xs) s' := by
  have hk := io_keyboardHandler (s := s) c.toNat st
  simp only [Kernel.step] at h
  split at h
  · cases h
  · rename_i hr
    rw [hr] at hk
    obtain ⟨text, ht⟩ := exception_io h
    exact .keyFault text hk.symm ht

theorem io_getFdAvail (q : Int) : (s.getFdAvail q).2.io = s.io := by
  unfold Kernel.getFdAvail
  split <;> rfl

theorem io_insertFdt (f : Nat → UInt8) : (s.insertFdt f).2.io = s.io := by
  have h : ((s.fileOpen f).2.getFdAvail (s.fileOpen f).2.curr).2.io = s.io := io_getFdAvail _
  unfold Kernel.insertFdt
  dsimp only
  split
  · rfl
  split
  · exact h
  split
  · exact h
  · exact h

theorem io_sysOpen (f : Nat → UInt8) : (s.sysOpen f).2.io = s.io := by
  unfold Kernel.sysOpen
  split
  · rfl
  · exact io_insertFdt f

theorem io_sysClose (fd : Int) : (s.sysClose fd).2.io = s.io := by
  have h : (s.removeFdEntry fd).2.io = s.io := by
    unfold Kernel.removeFdEntry
    dsimp only
    split <;> rfl
  unfold Kernel.sysClose
  split
  · rfl
  · dsimp only
    split <;> exact h

theorem io_sysGetargs (after mem : Nat → UInt8) (n : Int) :
    (s.sysGetargs after mem n).state.io = s.io := by
  unfold Kernel.sysGetargs
  dsimp only
  split <;> rfl

/-- A read either is a `terminal_read` or does nothing to the terminals. -/
theorem sysRead_io {fd : Int} {buf : Nat} {stack mem : Nat → UInt8} {n : Int} {r : SysResult}
    (h : s.sysRead fd buf stack mem n = some r) :
    ((s.readTarget fd buf).isTerminal = false ∧ r.state.io = s.io) ∨
      ((s.readTarget fd buf).isTerminal = true ∧
        ∃ ret bytes, s.terminalRead n = some (ret, bytes, r.state)) := by
  have hterm : s.terminalReadTo mem n = some r →
      ∃ ret bytes, s.terminalRead n = some (ret, bytes, r.state) := by
    intro h
    obtain ⟨⟨ret, bytes, s'⟩, hr, rfl⟩ := Option.map_eq_some_iff.mp h
    exact ⟨ret, bytes, hr⟩
  have hfile : ∀ fd buf, (s.fileRead fd buf n).2.2.io = s.io := by
    intro fd buf
    unfold Kernel.fileRead
    dsimp only
    split <;> rfl
  unfold Kernel.sysRead at h
  generalize s.readTarget fd buf = target at h ⊢
  split at h
  · cases h; exact .inl ⟨rfl, rfl⟩
  · exact .inr ⟨rfl, hterm h⟩
  · cases h
  · rename_i op
    cases op with
    | rtc => cases h; exact .inl ⟨rfl, rfl⟩
    | dir => cases h; exact .inl ⟨rfl, rfl⟩
    | file => cases h; exact .inl ⟨rfl, hfile _ _⟩
    | terminal => exact .inr ⟨rfl, hterm h⟩

/-- A write either prints its bytes or does nothing to the terminals. -/
theorem sysWrite_io {fd : Int} {buf : Nat} {mem : Nat → UInt8} {n : Int} {r : SysResult}
    (h : s.sysWrite fd buf mem n = some r) :
    ((s.writeTarget fd buf).isTerminal = false ∧ r.state.io = s.io) ∨
      ((s.writeTarget fd buf).isTerminal = true ∧
        r.state.io = s.io.print ((List.range n.toNat).map mem)) := by
  unfold Kernel.sysWrite at h
  generalize s.writeTarget fd buf = target at h ⊢
  split at h
  · cases h; exact .inl ⟨rfl, rfl⟩
  · cases h; exact .inr ⟨rfl, rfl⟩
  · cases h
  · rename_i op
    cases op with
    | rtc => cases h; exact .inl ⟨rfl, rfl⟩
    | dir => cases h; exact .inl ⟨rfl, rfl⟩
    | file => cases h; exact .inl ⟨rfl, rfl⟩
    | terminal => cases h; exact .inr ⟨rfl, rfl⟩

theorem vidmap_io {a : Nat} (h : s.step (.vidmap a) = some s') :
    (¬ Kernel.vidmapAccepts a ∧ s'.io = s.io) ∨
      (Kernel.vidmapAccepts a ∧ ∃ vram, s'.io = s.io.vidMappedIo vram) := by
  obtain ⟨-, h⟩ := syscall_eq h
  rcases Kernel.sysVidmap_cases (s := s) a with ⟨ha, hv⟩ | ⟨ha, hv | ⟨vram, umem, hv⟩⟩ <;>
    rw [hv] at h <;> cases h
  · exact .inl ⟨ha, rfl⟩
  · exact .inr ⟨ha, vram, io_vidMapped a vram umem⟩

theorem vidmapFault_io {a : Nat} {xs : List ExecIn} (h : s.step (.vidmapFault a xs) = some s') :
    Kernel.vidmapAccepts a ∧ ∃ text, s'.io = (s.io.vidMappedIo s.con.vram).print text := by
  obtain ⟨-, h⟩ := syscall_eq h
  rcases Kernel.sysVidmap_cases (s := s) a with ⟨-, hv⟩ | ⟨ha, hv | ⟨vram, umem, hv⟩⟩ <;>
    rw [hv] at h
  · cases h
  · obtain ⟨text, ht⟩ := exception_io h
    exact ⟨ha, text, ht.trans (congrArg (fun u => u.print text)
      (io_vidMapped (s := s) a s.con.vram s.umem))⟩
  · cases h

/-- The system calls that do nothing to the terminals. -/
def Event.Silent : Event → Prop
  | .execUser .. | .execFail .. | .openFd .. | .closeFd .. | .getargs .. => True
  | _ => False

theorem silent_io {e : Event} (h : s.step e = some s') (he : e.Silent) : s'.io = s.io := by
  cases e with
  | execUser fname x =>
    obtain ⟨-, h⟩ := syscall_eq h
    split at h
    · rename_i hr
      cases h
      exact execute_io (.inl hr)
    · cases h
  | execFail fname x =>
    obtain ⟨-, h⟩ := syscall_eq h
    split at h
    · cases h
    · rename_i hr
      cases h
      exact execute_io (.inr hr)
  | openFd f =>
    obtain ⟨-, h⟩ := syscall_eq h
    cases h
    exact io_sysOpen f
  | closeFd fd =>
    obtain ⟨-, h⟩ := syscall_eq h
    cases h
    exact io_sysClose fd
  | getargs after mem n =>
    obtain ⟨-, h⟩ := syscall_eq h
    cases h
    exact io_sysGetargs after mem n
  | _ => exact he.elim

/-- **What every event does to the terminals.** -/
theorem ioStep {e : Event} (h : s.step e = some s') : IoStep s e s' := by
  cases e with
  | tick esp ebp x => exact ioStep_tick h
  | tickLaunch esp ebp x =>
    obtain ⟨hc, hi⟩ := tickLaunch_io h
    exact .tickLaunch hc hi
  | key c st => exact ioStep_key h
  | keyFault c st xs => exact ioStep_keyFault h
  | execUser fname x => exact .same id (silent_io h trivial)
  | execFail fname x => exact .same id (silent_io h trivial)
  | halt st xs =>
    obtain ⟨-, h⟩ := syscall_eq h
    obtain ⟨r, hr, rfl⟩ := Option.map_eq_some_iff.mp h
    obtain ⟨text, ht⟩ := halt_io hr
    exact .prints text id ht
  | exception v xs =>
    obtain ⟨text, ht⟩ := exception_io h
    exact .prints text id ht
  | openFd f => exact .same id (silent_io h trivial)
  | closeFd fd => exact .same id (silent_io h trivial)
  | read fd buf stack mem n =>
    obtain ⟨-, h⟩ := syscall_eq h
    obtain ⟨r, hr, rfl⟩ := Option.map_eq_some_iff.mp h
    rcases sysRead_io hr with ⟨-, hs⟩ | ⟨-, ret, bytes, hs⟩
    · exact .same id hs
    · exact .read (io_terminalRead hs)
  | write fd buf mem n =>
    obtain ⟨-, h⟩ := syscall_eq h
    obtain ⟨r, hr, rfl⟩ := Option.map_eq_some_iff.mp h
    rcases sysWrite_io hr with ⟨-, hs⟩ | ⟨-, hs⟩
    · exact .same id hs
    · exact .prints _ id hs
  | getargs after mem n => exact .same id (silent_io h trivial)
  | vidmap a =>
    rcases vidmap_io h with ⟨ha, hi⟩ | ⟨ha, vram, hi⟩
    · exact .same ha hi
    · exact .vidmap vram ha hi
  | vidmapFault a xs =>
    obtain ⟨ha, text, hi⟩ := vidmapFault_io h
    exact .vidmapFault s.con.vram text ha hi

end Step

end Mp3
