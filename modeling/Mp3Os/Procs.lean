import Mp3Os.Execute
import Mp3Os.Lib.Chains
import Mp3Os.Lib.Search

/-!
# The process table apart from the rest

`Procs` is the part of the state that processes and the scheduler are about, and
`Kernel.procs` takes it out of the kernel. Each operation of the kernel acts on it as a small
operation of its own (`enter`, `launch`, `reap`, `drop`, `deschedule`, `reschedule`), or not at
all.

`procStep` says this for every event, once and for all (`ProcStep`). The invariants of the
process table (`Forest.lean`, `Isolation.lean`, `Context.lean`) are proved over it.
-/

namespace Mp3

/-- What `execute` records in the PCB of the process it starts. -/
structure Frame where
  esp : UInt32
  ebp : UInt32
  returnLabelAdd : UInt32
  esp0 : UInt32
  ss0 : UInt32

/-- The process table and the scheduler's state. -/
@[ext] structure Procs where
  inUse : Int → Int
  parent : Int → Int
  frame : Int → Frame
  task : Int → UInt32 × UInt32
  curr : Int → Int
  saveTss : Int → Tss
  cur : Int
  tss : Tss
  userPde : Nat
  pitCount : Nat

/-- The frame that `execute` recorded in a PCB. -/
def Pcb.frame (b : Pcb) : Frame := ⟨b.esp, b.ebp, b.returnLabelAdd, b.esp0, b.ss0⟩

/-- The part of the state that is about processes. -/
def Kernel.procs (s : Kernel) : Procs where
  inUse p := (s.pcbs p).pcbInUse
  parent p := (s.pcbs p).parentPid
  frame p := (s.pcbs p).frame
  task p := ((s.pcbs p).taskEsp, (s.pcbs p).taskEbp)
  curr t := (s.terminals t).currProcess
  saveTss t := (s.terminals t).saveTss
  cur := s.curTerminal
  tss := s.tss
  userPde := s.paging.pageDirectory 32
  pitCount := s.pitCount

/-- The entry that maps the frame of a process for users. -/
def userEntry (pid : Int) : Nat := frameAddr pid ||| 0x87

namespace Procs

variable (p : Procs)

/-- The process that is scheduled. -/
def running : Int := p.curr p.cur

/-- A PCB in use. -/
def Used (a : Int) : Prop := 0 ≤ a ∧ a < 6 ∧ p.inUse a = 0

/-- The PCB that `getPID` gives out. -/
structure LowestFree (pid : Int) : Prop where
  nonneg : 0 ≤ pid
  lt : pid < 6
  free : p.inUse pid = -1
  lower : ∀ q, 0 ≤ q → q < pid → p.inUse q ≠ -1

/-- `execute` up to the ELF test. -/
def enter (pid : Int) (x : ExecIn) : Procs :=
  { p with
    inUse := Function.update p.inUse pid 0
    parent := Function.update p.parent pid p.running
    frame := Function.update p.frame pid
      ⟨x.esp, x.ebp, x.retLabel, p.tss.esp0, p.tss.ss0.toUInt32⟩
    curr := Function.update p.curr p.cur pid
    userPde := userEntry pid }

/-- `execute` of an ELF image. -/
def launch (pid : Int) (x : ExecIn) : Procs :=
  { p.enter pid x with tss := ⟨kernelStack pid, kernelDs⟩ }

/-- `halt` of a process with a parent. -/
def reap : Procs :=
  let c := p.running
  { p with
    inUse := Function.update p.inUse c (-1)
    parent := Function.update p.parent c (-1)
    frame := Function.update p.frame c
      { p.frame c with esp := 0xFFFFFFFF, ebp := 0xFFFFFFFF, returnLabelAdd := 0xFFFFFFFF }
    curr := Function.update p.curr p.cur (p.parent c)
    tss := ⟨(p.frame c).esp0, (p.frame c).ss0.toUInt16⟩
    userPde := userEntry (p.parent c) }

/-- The first two writes of the loop of `halt`. -/
def drop (c : Int) : Procs :=
  { p with
    inUse := Function.update p.inUse c (-1)
    curr := Function.update p.curr c (-1) }

/-- The start of `pit_handler`. -/
def deschedule (esp ebp : UInt32) : Procs :=
  { p with
    saveTss := Function.update p.saveTss p.cur p.tss
    task := Function.update p.task p.running (esp, ebp)
    cur := (p.cur + 1) % 3 }

/-- `pitCount` counts the ticks up to 4. -/
def count : Procs := { p with pitCount := if p.pitCount ≤ 3 then p.pitCount + 1 else p.pitCount }

/-- The end of `pit_handler`. -/
def reschedule : Procs :=
  { p with tss := p.saveTss p.cur, userPde := userEntry p.running }

theorem le_count : p.pitCount ≤ p.count.pitCount := by
  unfold count
  dsimp only
  split
  · exact Nat.le_succ _
  · exact Nat.le_refl _

end Procs

/-! ## The operations of the kernel on the process table -/

section Operations

variable {s : Kernel}

theorem running_eq (s : Kernel) : s.procs.running = s.curr := rfl

/-- A change to a terminal. -/
theorem procs_modTerm (t : Int) (f : Terminal → Terminal) :
    (s.modTerm t f).procs =
      { s.procs with
        curr := Function.update s.procs.curr t (f (s.terminals t)).currProcess
        saveTss := Function.update s.procs.saveTss t (f (s.terminals t)).saveTss } := by
  simp only [Kernel.procs, Kernel.modTerm, Procs.mk.injEq, true_and, and_true]
  exact ⟨Function.comp_update Terminal.currProcess .., Function.comp_update Terminal.saveTss ..⟩

/-- A change to a PCB. -/
theorem procs_modPcb (q : Int) (f : Pcb → Pcb) :
    (s.modPcb q f).procs =
      { s.procs with
        inUse := Function.update s.procs.inUse q (f (s.pcbs q)).pcbInUse
        parent := Function.update s.procs.parent q (f (s.pcbs q)).parentPid
        frame := Function.update s.procs.frame q (f (s.pcbs q)).frame
        task := Function.update s.procs.task q
          ((f (s.pcbs q)).taskEsp, (f (s.pcbs q)).taskEbp) } := by
  simp only [Kernel.procs, Kernel.modPcb, Procs.mk.injEq, and_true]
  exact ⟨Function.comp_update Pcb.pcbInUse .., Function.comp_update Pcb.parentPid ..,
    Function.comp_update Pcb.frame ..,
    Function.comp_update (fun b : Pcb => (b.taskEsp, b.taskEbp)) ..⟩

/-- A change to other fields of a terminal. -/
theorem procs_modTerm_other {t : Int} {f : Terminal → Terminal}
    (hc : (f (s.terminals t)).currProcess = (s.terminals t).currProcess)
    (ht : (f (s.terminals t)).saveTss = (s.terminals t).saveTss) :
    (s.modTerm t f).procs = s.procs := by
  rw [procs_modTerm, hc, ht]
  simp only [Kernel.procs, Function.update_eq_self_iff.mpr]

@[simp] theorem procs_print (text : List UInt8) : (s.print text).procs = s.procs := rfl

@[simp] theorem procs_clearScreen : s.clearScreen.procs = s.procs := rfl

@[simp] theorem procs_looked (fname : Nat → UInt8) : (s.looked fname).procs = s.procs := rfl

@[simp] theorem procs_saveScreen (t : Int) : (s.saveScreen t).procs = s.procs :=
  procs_modTerm_other rfl rfl

@[simp] theorem procs_setEnterFlag (t v : Int) : (s.setEnterFlag t v).procs = s.procs :=
  procs_modTerm_other rfl rfl

@[simp] theorem procs_setFd (q fd : Int) (e : FdEntry) : (s.setFd q fd e).procs = s.procs := by
  rw [Kernel.setFd, procs_modPcb]
  simp [Kernel.procs, Pcb.frame]

theorem procs_saveVisible : s.saveVisible.procs = s.procs :=
  procs_modTerm_other (s := s) (t := s.visible) (f := fun t => t.save s.con s.kbd) rfl rfl

@[simp] theorem procs_switchTerminal (t : Int) : (s.switchTerminal t).procs = s.procs := by
  unfold Kernel.switchTerminal
  split_ifs
  · rfl
  · rfl
  · exact procs_saveVisible (s := s)

theorem frameAddr_aligned (pid : Int) : frameAddr pid % 4096 = 0 := by
  unfold frameAddr u32
  omega

theorem frameAddr_eq {pid : Int} (h0 : 0 ≤ pid) (h5 : pid ≤ 5) :
    frameAddr pid = (pid + 2).toNat * 4194304 := by
  unfold frameAddr u32
  omega

/-- The frame that the entry of a process maps. -/
theorem userEntry_frame {pid : Int} (h0 : 0 ≤ pid) (h5 : pid ≤ 5) :
    userEntry pid / 4194304 * 4194304 = (pid + 2).toNat * 4194304 := by
  rw [userEntry, aligned_or (frameAddr_aligned pid) (by decide), frameAddr_eq h0 h5]
  omega

/-- `map_page` of a process frame sets the entry in either branch. -/
theorem mapProcess_pageDirectory (pid : Int) :
    (s.mapProcess pid).paging.pageDirectory =
      Function.update s.paging.pageDirectory 32 (userEntry pid) := by
  simp only [Kernel.mapProcess, Paging.mapPage, frameAddr_aligned]
  simp only [ne_eq, not_true_eq_false, ↓reduceIte, Nat.reduceMod, Nat.reduceDiv]
  split_ifs <;> rfl

theorem procs_mapProcess (pid : Int) :
    (s.mapProcess pid).procs = { s.procs with userPde := userEntry pid } := by
  have h : (s.mapProcess pid).paging.pageDirectory 32 = userEntry pid := by
    rw [mapProcess_pageDirectory]; simp
  rw [← h]
  rfl

/-- The first free PCB. -/
theorem freePid_some {pid : Int} (h : s.freePid = some pid) : s.procs.LowestFree pid := by
  obtain ⟨h0, h6⟩ := freePid_mem h
  obtain ⟨-, hf, hlow⟩ := Search.find?_lowest (by decide) h
  refine ⟨h0, h6, by simpa [Kernel.procs] using hf, fun q hq hlt => ?_⟩
  have hne := hlow q (by simp; omega) hlt
  simpa [Kernel.procs] using hne

theorem freePid_none (h : s.freePid = none) {q : Int} (h0 : 0 ≤ q) (h6 : q < 6) :
    s.procs.inUse q ≠ -1 := by
  have := List.find?_eq_none.mp h q (by simp; omega)
  simpa [Kernel.procs] using this

theorem procs_entered (fname : Nat → UInt8) (pid : Int) (x : ExecIn) :
    (s.entered fname pid x).procs = s.procs.enter pid x := by
  rw [Kernel.entered, Kernel.enterProcess, procs_mapProcess, procs_modTerm, procs_modPcb,
    procs_modPcb, procs_looked]
  simp only [Procs.enter, Kernel.modPcb, Function.update_self, Function.update_idem]
  simp [Kernel.procs, Pcb.frame, Kernel.looked, Procs.running, Kernel.curr]

theorem procs_started (fname : Nat → UInt8) (pid : Int) (x : ExecIn) (buf : Nat → UInt8) :
    (s.started fname pid x buf).procs = s.procs.launch pid x := by
  rw [Procs.launch, ← procs_entered fname pid x]
  rfl

theorem procs_saveTask (esp ebp : UInt32) :
    (s.saveTask esp ebp).procs =
      { s.procs with
        saveTss := Function.update s.procs.saveTss s.procs.cur s.procs.tss
        task := Function.update s.procs.task s.procs.running (esp, ebp) } := by
  rw [Kernel.saveTask, procs_modPcb, procs_modTerm]
  simp [Kernel.procs, Kernel.modTerm, Pcb.frame, Procs.running, Kernel.curr]

theorem procs_deschedule (esp ebp : UInt32) :
    (s.deschedule esp ebp).procs = s.procs.deschedule esp ebp := by
  have h : ∀ t, (((s.countInterrupt.saveTask esp ebp).saveScreen t)).procs =
      (s.countInterrupt.saveTask esp ebp).procs := fun t => procs_saveScreen t
  calc (s.deschedule esp ebp).procs
      = { ((s.countInterrupt.saveTask esp ebp).saveScreen _).procs with
          cur := (s.curTerminal + 1) % 3 } := rfl
    _ = _ := by rw [h, procs_saveTask]; rfl

theorem procs_freshScreen : s.freshScreen.procs = { s.procs with pitCount := s.pitCount + 1 } := by
  have h := procs_saveScreen (s := s.clearScreen) s.curTerminal
  calc s.freshScreen.procs
      = { (s.clearScreen.saveScreen s.curTerminal).procs with pitCount := s.pitCount + 1 } := rfl
    _ = _ := by rw [h, procs_clearScreen]

theorem procs_prepareShell :
    s.prepareShell.procs = { s.procs with pitCount := s.pitCount + 1 } := by
  have h : (s.switchTerminal s.pitCount).pitCount = s.pitCount :=
    congrArg Procs.pitCount (procs_switchTerminal _)
  rw [Kernel.prepareShell, procs_freshScreen, procs_switchTerminal, h]

theorem procs_reschedule {s' : Kernel} {esp ebp : UInt32} (h : s.reschedule = .resume s' esp ebp) :
    s'.procs = s.procs.reschedule ∧ (esp, ebp) = s.procs.task s.procs.running := by
  simp only [Kernel.reschedule, PitResult.resume.injEq] at h
  obtain ⟨rfl, rfl, rfl⟩ := h
  refine ⟨?_, rfl⟩
  rw [procs_mapProcess]
  rfl

theorem execute_user {s' : Kernel} {fname : Nat → UInt8} {x : ExecIn}
    (h : s.execute fname x = .user s') :
    ∃ pid, s.procs.LowestFree pid ∧ s'.procs = s.procs.launch pid x := by
  rw [execute_eq] at h
  cases hb : s.fs.header fname x.buf with
  | none => rw [hb] at h; cases h
  | some buf =>
    cases hp : s.freePid with
    | none => rw [hb, hp] at h; cases h
    | some pid =>
      rw [hb, hp] at h
      simp only at h
      split at h
      · cases h
        exact ⟨pid, freePid_some hp, procs_started ..⟩
      · cases h

theorem execute_fail {s' : Kernel} {fname : Nat → UInt8} {x : ExecIn}
    (h : s.execute fname x = .fail s') :
    s'.procs = s.procs ∨ ∃ pid, s.procs.LowestFree pid ∧ s'.procs = s.procs.enter pid x := by
  rw [execute_eq] at h
  cases hb : s.fs.header fname x.buf with
  | none => rw [hb] at h; cases h; exact .inl (procs_looked _)
  | some buf =>
    cases hp : s.freePid with
    | none => rw [hb, hp] at h; cases h; exact .inl (procs_looked _)
    | some pid =>
      rw [hb, hp] at h
      simp only at h
      split at h
      · cases h
      · cases h
        exact .inr ⟨pid, freePid_some hp, procs_entered ..⟩

/-- An ELF image starts when a PCB is free. -/
theorem execute_of_elf {fname buf : Nat → UInt8} {x : ExecIn} {q : Int}
    (hb : s.fs.header fname x.buf = some buf) (he : Kernel.isElf buf) (h0 : 0 ≤ q) (h6 : q < 6)
    (hq : s.procs.inUse q = -1) : ∃ s', s.execute fname x = .user s' := by
  cases hp : s.freePid with
  | none => exact absurd hq (freePid_none hp h0 h6)
  | some pid => exact ⟨s.started fname pid x buf, by rw [execute_eq, hb, hp]; simp [he]⟩

/-! ### `halt` -/

/-- The loop of `halt` before each `execute`. -/
theorem procs_dropped (c : Int) (text : List UInt8) :
    (((s.modPcb c fun b => { b with pcbInUse := -1 }).modTerm c fun t =>
      { t with currProcess := -1 }).print text).procs = s.procs.drop c := by
  rw [procs_print, procs_modTerm, procs_modPcb]
  simp [Kernel.procs, Procs.drop, Kernel.modPcb, Pcb.frame]

/-- What the loop of `halt` does before each `execute`. -/
def Kernel.dropped (s : Kernel) (c : Int) : Kernel :=
  ((s.modPcb c fun b => { b with pcbInUse := -1 }).modTerm c fun t =>
    { t with currProcess := -1 }).print (lit ['R', 'e', 'e', '-'])

theorem restart_user {c : Int} {x : ExecIn} {u : Kernel} (xs : List ExecIn)
    (h : (s.dropped c).execute shellName x = .user u) :
    Kernel.restart c s (x :: xs) = some u := by
  unfold Kernel.dropped at h
  simp only [Kernel.restart, h]

theorem restart_fail {c : Int} {x : ExecIn} {u : Kernel} (xs : List ExecIn)
    (h : (s.dropped c).execute shellName x = .fail u) :
    Kernel.restart c s (x :: xs) = Kernel.restart c u xs := by
  unfold Kernel.dropped at h
  simp only [Kernel.restart, h]

/-- **The rule for the loop of `halt`.** `K` is kept by the writes of the loop and by an
`execute` that fails after it took a PCB. -/
theorem restart_rule {K : Procs → Prop} {c : Int} (hdrop : ∀ p, K p → K (p.drop c))
    (henter : ∀ p pid x, K p → (p.drop c).LowestFree pid → K ((p.drop c).enter pid x))
    {xs : List ExecIn} {s' : Kernel} (hK : K s.procs) (h : Kernel.restart c s xs = some s') :
    ∃ q pid x, K q ∧ (q.drop c).LowestFree pid ∧ s'.procs = (q.drop c).launch pid x := by
  induction xs generalizing s with
  | nil => cases h
  | cons x xs ih =>
    simp only [Kernel.restart] at h
    have hd := procs_dropped (s := s) c (lit ['R', 'e', 'e', '-'])
    split at h
    · rename_i u hu
      cases h
      obtain ⟨pid, hf, hp⟩ := execute_user hu
      rw [hd] at hf hp
      exact ⟨s.procs, pid, x, hK, hf, hp⟩
    · rename_i u hu
      refine ih ?_ h
      rcases execute_fail hu with hp | ⟨pid, hf, hp⟩ <;> rw [hd] at hp
      · exact hp ▸ hdrop _ hK
      · exact hp ▸ henter _ _ x hK (hd ▸ hf)

/-- A loop whose first `execute` finds an ELF image ends there. -/
theorem restart_first {c : Int} {x : ExecIn} {xs : List ExecIn} {buf : Nat → UInt8} {s' : Kernel}
    (hb : s.fs.header shellName x.buf = some buf) (he : Kernel.isElf buf) (h0 : 0 ≤ c)
    (h6 : c < 6) (h : Kernel.restart c s (x :: xs) = some s') :
    ∃ pid, (s.procs.drop c).LowestFree pid ∧ s'.procs = (s.procs.drop c).launch pid x := by
  have hd := procs_dropped (s := s) c (lit ['R', 'e', 'e', '-'])
  simp only [Kernel.restart] at h
  obtain ⟨u, hu⟩ := execute_of_elf (s := (((s.modPcb c fun b => { b with pcbInUse := -1 }).modTerm c
    fun t => { t with currProcess := -1 }).print (lit ['R', 'e', 'e', '-']))) (x := x) hb he h0 h6
    (by rw [hd]; simp [Procs.drop])
  rw [hu] at h
  cases h
  obtain ⟨pid, hf, hp⟩ := execute_user hu
  rw [hd] at hf hp
  exact ⟨pid, hf, hp⟩

/-- `halt` of a process with a parent returns to the label that its `execute` recorded. -/
theorem halt_child (h : s.procs.parent s.procs.running ≠ -1) (st : UInt8) (xs : List ExecIn) :
    ∃ s', s'.procs = s.procs.reap ∧
      s.halt st xs = some (.resume s' (s.procs.frame s.procs.running).esp
        (s.procs.frame s.procs.running).ebp (s.procs.frame s.procs.running).returnLabelAdd) := by
  have hp : ¬ (s.pcbs s.curr).parentPid = -1 := h
  have htss : ∀ (u : Kernel) (T : Tss), { u with tss := T }.procs = { u.procs with tss := T } :=
    fun _ _ => rfl
  unfold Kernel.halt
  dsimp only
  rw [if_neg hp]
  refine ⟨_, ?_, rfl⟩
  rw [procs_mapProcess, procs_modTerm, htss, procs_modPcb]
  simp [Kernel.procs, Procs.reap, Procs.running, Kernel.modPcb, Pcb.destruct, Pcb.frame,
    Kernel.curr]

/-- The two kinds of `halt`. -/
theorem halt_cases {st : UInt8} {xs : List ExecIn} {r : HaltResult} (h : s.halt st xs = some r) :
    (s.procs.parent s.procs.running = -1 ∧ Kernel.restart s.curr s xs = some r.state) ∨
    (s.procs.parent s.procs.running ≠ -1 ∧ r.state.procs = s.procs.reap) := by
  by_cases hp : s.procs.parent s.procs.running = -1
  · have hp' : (s.pcbs s.curr).parentPid = -1 := hp
    unfold Kernel.halt at h
    dsimp only at h
    rw [if_pos hp'] at h
    obtain ⟨s', hr, rfl⟩ := Option.map_eq_some_iff.mp h
    exact .inl ⟨hp, hr⟩
  · obtain ⟨s', hs', hr⟩ := halt_child hp st xs
    rw [hr] at h
    cases h
    exact .inr ⟨hp, hs'⟩

/-! ### Handlers and system calls that leave processes alone -/

/-- The process table, the file system and the stored arguments are as before. -/
structure SameProcs (s s' : Kernel) : Prop where
  procs : s'.procs = s.procs
  fs : s'.fs = s.fs
  storeargs : s'.storeargs = s.storeargs

theorem SameProcs.trans {s₁ s₂ s₃ : Kernel} (h₁ : SameProcs s₁ s₂) (h₂ : SameProcs s₂ s₃) :
    SameProcs s₁ s₃ := ⟨h₂.1.trans h₁.1, h₂.2.trans h₁.2, h₂.3.trans h₁.3⟩

theorem sameProcs_switchTerminal (t : Int) : SameProcs s (s.switchTerminal t) := by
  refine ⟨procs_switchTerminal t, ?_, ?_⟩ <;>
  · unfold Kernel.switchTerminal
    split_ifs <;> rfl

theorem sameProcs_beginKey : SameProcs s s.beginKey :=
  ⟨procs_saveScreen (s := s) s.curTerminal, rfl, rfl⟩

theorem sameProcs_endKey : SameProcs s s.endKey :=
  ⟨procs_saveScreen (s := s.mapWindow) s.visible, rfl, rfl⟩

theorem sameProcs_upKey (st : Stack) : SameProcs s (s.upKey st).state := by
  unfold Kernel.upKey
  dsimp only
  split
  · split <;> exact ⟨rfl, rfl, rfl⟩
  · exact ⟨rfl, rfl, rfl⟩

theorem sameProcs_charKey (c : Nat) : SameProcs s (s.charKey c) := by
  unfold Kernel.charKey
  dsimp only
  split <;> exact ⟨rfl, rfl, rfl⟩

theorem sameProcs_backKey : SameProcs s s.backKey.state := by
  unfold Kernel.backKey
  split <;> exact ⟨rfl, rfl, rfl⟩

theorem sameProcs_editKey (c : Nat) : SameProcs s (s.editKey c).state := by
  unfold Kernel.editKey
  split
  · exact ⟨rfl, rfl, rfl⟩
  split
  · exact sameProcs_backKey
  split
  · exact ⟨procs_setEnterFlag .., rfl, rfl⟩
  split
  · exact sameProcs_switchTerminal _
  split
  · exact sameProcs_charKey c
  · exact ⟨rfl, rfl, rfl⟩

theorem sameProcs_keyboardHandler (c : Nat) (st : Stack) :
    SameProcs s (s.keyboardHandler c st).state := by
  unfold Kernel.keyboardHandler
  split
  · exact ⟨rfl, rfl, rfl⟩
  · dsimp only
    have hk : SameProcs s.beginKey
        (if c = 0x48 then s.beginKey.upKey st else s.beginKey.editKey c).state := by
      split
      · exact sameProcs_upKey st
      · exact sameProcs_editKey c
    have hs := sameProcs_beginKey.trans hk
    split
    · rename_i s' hr
      rw [hr] at hs
      exact hs.trans sameProcs_endKey
    · rename_i s' hr
      rw [hr] at hs
      exact hs

theorem procs_getFdAvail (q : Int) : (s.getFdAvail q).2.procs = s.procs := by
  unfold Kernel.getFdAvail
  split
  · exact procs_setFd ..
  · rfl

theorem procs_insertFdt (f : Nat → UInt8) : (s.insertFdt f).2.procs = s.procs := by
  unfold Kernel.insertFdt
  dsimp only
  split
  · rfl
  split
  · exact procs_getFdAvail (s := (s.fileOpen f).2) _
  split
  · exact procs_getFdAvail (s := (s.fileOpen f).2) _
  · rw [procs_setFd]
    exact procs_getFdAvail (s := (s.fileOpen f).2) _

theorem procs_sysOpen (f : Nat → UInt8) : (s.sysOpen f).2.procs = s.procs := by
  unfold Kernel.sysOpen
  split
  · rfl
  · exact procs_insertFdt f

theorem procs_sysClose (fd : Int) : (s.sysClose fd).2.procs = s.procs := by
  have h : (s.removeFdEntry fd).2.procs = s.procs := by
    unfold Kernel.removeFdEntry
    dsimp only
    split
    · exact procs_setFd ..
    · rfl
  unfold Kernel.sysClose
  split
  · rfl
  · dsimp only
    split <;> exact h

theorem procs_terminalReadTo {mem : Nat → UInt8} {n : Int} {r : SysResult}
    (h : s.terminalReadTo mem n = some r) : r.state.procs = s.procs := by
  obtain ⟨⟨ret, bytes, s'⟩, hr, rfl⟩ := Option.map_eq_some_iff.mp h
  obtain ⟨-, _, _, -, -, -, -, rfl⟩ := terminalRead_eq hr
  exact procs_setEnterFlag ..

theorem procs_fileRead (fd : Int) (buf : Nat → UInt8) (n : Int) :
    (s.fileRead fd buf n).2.2.procs = s.procs := by
  unfold Kernel.fileRead
  dsimp only
  split
  · exact procs_setFd ..
  · rfl

theorem procs_sysRead {fd : Int} {buf : Nat} {stack mem : Nat → UInt8} {n : Int} {r : SysResult}
    (h : s.sysRead fd buf stack mem n = some r) : r.state.procs = s.procs := by
  unfold Kernel.sysRead at h
  split at h
  · cases h; rfl
  · exact procs_terminalReadTo h
  · cases h
  · rename_i op _
    cases op with
    | rtc => cases h; rfl
    | dir => cases h; rfl
    | file => cases h; exact procs_fileRead ..
    | terminal => exact procs_terminalReadTo h

theorem procs_sysWrite {fd : Int} {buf : Nat} {mem : Nat → UInt8} {n : Int} {r : SysResult}
    (h : s.sysWrite fd buf mem n = some r) : r.state.procs = s.procs := by
  unfold Kernel.sysWrite at h
  split at h
  · cases h; rfl
  · cases h; rfl
  · cases h
  · rename_i op _
    cases op <;> (cases h; rfl)

theorem procs_sysGetargs (after mem : Nat → UInt8) (n : Int) :
    (s.sysGetargs after mem n).state.procs = s.procs := by
  have h : ∀ a, (s.modPcb s.curr fun b => { b with args := a }).procs = s.procs := by
    intro a
    rw [procs_modPcb]
    simp [Kernel.procs, Pcb.frame]
  unfold Kernel.sysGetargs
  dsimp only
  split <;> exact h _

theorem procs_vidMapped (a : Nat) : (s.vidMapped a).procs = s.procs := by
  have h : (s.modTerm s.curTerminal fun t => { t with screenStart := a }).procs = s.procs :=
    procs_modTerm_other rfl rfl
  rw [← h]
  rfl

theorem sameProcs_sysVidmap (a : Nat) : SameProcs s (s.sysVidmap a).state := by
  rcases Kernel.sysVidmap_cases (s := s) a with ⟨-, h⟩ | ⟨-, h | ⟨vram, umem, h⟩⟩ <;> rw [h]
  · exact ⟨rfl, rfl, rfl⟩
  · exact ⟨procs_vidMapped a, rfl, rfl⟩
  · exact ⟨procs_vidMapped (s := s) a, rfl, rfl⟩

end Operations

/-! ## What an event does to the process table -/

/-- The events that leave the process table alone. -/
def Event.Quiet : Event → Prop
  | .key .. | .openFd .. | .closeFd .. | .read .. | .write .. | .getargs .. | .vidmap .. => True
  | _ => False

/-- The events that end in a `halt`, with what its `execute` calls take from the machine. -/
def Event.halts : Event → Option (List ExecIn)
  | .keyFault _ _ xs | .halt _ xs | .exception _ xs | .vidmapFault _ xs => some xs
  | _ => none

/-- What an event does to the process table: every way in which it can end. -/
inductive ProcStep (s : Kernel) : Event → Kernel → Prop
  | quiet {e : Event} {s' : Kernel} : e.Quiet → s'.procs = s.procs → ProcStep s e s'
  | tick {esp ebp : UInt32} {x : ExecIn} {s' : Kernel} :
      s'.procs = (s.procs.deschedule esp ebp).count.reschedule → ProcStep s (.tick esp ebp x) s'
  | tickTakes {esp ebp : UInt32} {x : ExecIn} {s' : Kernel} {pid : Int} :
      s.pitCount < 3 → (s.procs.deschedule esp ebp).count.LowestFree pid →
      s'.procs = ((s.procs.deschedule esp ebp).count.enter pid x).reschedule →
      ProcStep s (.tick esp ebp x) s'
  | tickLaunch {esp ebp : UInt32} {x : ExecIn} {s' : Kernel} {pid : Int} :
      s.pitCount < 3 → (s.procs.deschedule esp ebp).count.LowestFree pid →
      s'.procs = (s.procs.deschedule esp ebp).count.launch pid x →
      ProcStep s (.tickLaunch esp ebp x) s'
  | execUser {fname : Nat → UInt8} {x : ExecIn} {s' : Kernel} {pid : Int} :
      s.HasProcess → s.procs.LowestFree pid → s'.procs = s.procs.launch pid x →
      ProcStep s (.execUser fname x) s'
  | execFail {fname : Nat → UInt8} {x : ExecIn} {s' : Kernel} :
      s.HasProcess → s'.procs = s.procs → ProcStep s (.execFail fname x) s'
  | execTakes {fname : Nat → UInt8} {x : ExecIn} {s' : Kernel} {pid : Int} :
      s.HasProcess → s.procs.LowestFree pid → s'.procs = s.procs.enter pid x →
      ProcStep s (.execFail fname x) s'
  | reap {e : Event} {xs : List ExecIn} {s' : Kernel} :
      e.halts = some xs → s.HasProcess → s.procs.parent s.procs.running ≠ -1 →
      s'.procs = s.procs.reap → ProcStep s e s'
  | restart {e : Event} {xs : List ExecIn} {u s' : Kernel} :
      e.halts = some xs → s.HasProcess → s.procs.parent s.procs.running = -1 → SameProcs s u →
      Kernel.restart s.curr u xs = some s' → ProcStep s e s'

section Step

variable {s s' : Kernel} {esp ebp : UInt32} {x : ExecIn}

theorem count_deschedule_lt (h : s.pitCount < 3) :
    (s.deschedule esp ebp).prepareShell.procs = (s.procs.deschedule esp ebp).count := by
  rw [procs_prepareShell, procs_deschedule, Procs.count, if_pos]
  · rfl
  · show s.pitCount ≤ 3
    omega

/-- After the boot phase, `pit_handler` resumes the next terminal with the registers saved in the
PCB of its process. -/
theorem pitHandler_resume {esp' ebp' : UInt32} (hc : 3 ≤ s.pitCount)
    (hr : s.pitHandler esp ebp x = .resume s' esp' ebp') :
    s'.procs = (s.procs.deschedule esp ebp).count.reschedule ∧
      (esp', ebp') = (s.procs.deschedule esp ebp).task s'.procs.running := by
  have hdp : (s.procs.deschedule esp ebp).pitCount = s.pitCount := rfl
  have hu : ∃ u : Kernel, u.procs = (s.procs.deschedule esp ebp).count ∧
      u.reschedule = .resume s' esp' ebp' := by
    rcases Kernel.pitHandler_cases (s := s) esp ebp x with
      ⟨u, hlt, -, -⟩ | ⟨u, hlt, -, -⟩ | ⟨h3, hu⟩ | ⟨hgt, hu⟩
    · omega
    · omega
    · refine ⟨_, ?_, hu ▸ hr⟩
      have h4 : ∀ u : Kernel, { u with pitCount := 4 }.procs = { u.procs with pitCount := 4 } :=
        fun _ => rfl
      rw [h4, procs_switchTerminal, procs_deschedule, Procs.count, hdp, h3]
      rfl
    · refine ⟨_, ?_, hu ▸ hr⟩
      rw [procs_deschedule, Procs.count, hdp, if_neg (by omega), ← hdp]
  obtain ⟨u, hp, hu⟩ := hu
  obtain ⟨hs', ht⟩ := procs_reschedule hu
  rw [hp] at hs' ht
  rw [hs']
  exact ⟨rfl, ht⟩

theorem procStep_tick (h : s.step (.tick esp ebp x) = some s') :
    ProcStep s (.tick esp ebp x) s' := by
  simp only [Kernel.step] at h
  split at h
  · rename_i esp' ebp' hr
    cases h
    by_cases hc : 3 ≤ s.pitCount
    · exact .tick (pitHandler_resume hc hr).1
    rcases Kernel.pitHandler_cases (s := s) esp ebp x with
      ⟨u, -, -, hu⟩ | ⟨u, hlt, he, hu⟩ | ⟨h3, -⟩ | ⟨hgt, -⟩
    · rw [hr] at hu
      cases hu
    · rw [hr] at hu
      have hp := (procs_reschedule hu.symm).1
      rcases execute_fail he with hq | ⟨pid, hf, hq⟩ <;> rw [hq] at hp
      · rw [count_deschedule_lt hlt] at hp
        exact .tick hp
      · rw [count_deschedule_lt hlt] at hp hf
        exact .tickTakes hlt hf hp
    · omega
    · omega
  · cases h

theorem procStep_tickLaunch (h : s.step (.tickLaunch esp ebp x) = some s') :
    ProcStep s (.tickLaunch esp ebp x) s' := by
  simp only [Kernel.step] at h
  split at h
  · cases h
  · rename_i hr
    cases h
    rcases Kernel.pitHandler_cases (s := s) esp ebp x with
      ⟨u, hc, he, hu⟩ | ⟨u, -, -, hu⟩ | ⟨-, hu⟩ | ⟨-, hu⟩ <;> rw [hr] at hu
    · cases hu
      obtain ⟨pid, hf, hp⟩ := execute_user he
      rw [count_deschedule_lt hc] at hf hp
      exact .tickLaunch hc hf hp
    all_goals cases hu

theorem syscall_eq {r : Option Kernel} (h : s.syscall r = some s') : s.HasProcess ∧ r = some s' := by
  unfold Kernel.syscall at h
  split at h
  · rename_i hp; exact ⟨hp, h⟩
  · cases h

/-- A `halt` in a state `u` with the process table of `s`. -/
theorem procStep_halt {e : Event} {xs : List ExecIn} {u : Kernel} {st : UInt8}
    (he : e.halts = some xs) (hh : s.HasProcess) (hu : SameProcs s u)
    (h : (u.halt st xs).map HaltResult.state = some s') : ProcStep s e s' := by
  obtain ⟨r, hr, rfl⟩ := Option.map_eq_some_iff.mp h
  have hcurr : u.curr = s.curr := congrArg Procs.running hu.1
  rcases halt_cases hr with ⟨hp, hr⟩ | ⟨hp, hr⟩ <;> rw [hu.1] at hp
  · exact .restart he hh hp hu (hcurr ▸ hr)
  · exact .reap he hh hp (hu.1 ▸ hr)

/-- An exception in a state `u` with the process table of `s`. -/
theorem procStep_exception {e : Event} {xs : List ExecIn} {u : Kernel} {v : Nat}
    (he : e.halts = some xs) (hu : SameProcs s u) (h : u.exception v xs = some s') :
    ProcStep s e s' := by
  unfold Kernel.exception at h
  split at h
  · rename_i hh
    have hcurr : u.curr = s.curr := congrArg Procs.running hu.1
    refine procStep_halt he ?_ (hu.trans ⟨procs_print _, rfl, rfl⟩) h
    unfold Kernel.HasProcess at hh ⊢
    omega
  · cases h

/-- **What every event does to the process table.** -/
theorem procStep {e : Event} (h : s.step e = some s') : ProcStep s e s' := by
  cases e with
  | tick esp ebp x => exact procStep_tick h
  | tickLaunch esp ebp x => exact procStep_tickLaunch h
  | key c st =>
    have hk := sameProcs_keyboardHandler (s := s) c.toNat st
    simp only [Kernel.step] at h
    split at h
    · rename_i hr
      cases h
      rw [hr] at hk
      exact .quiet trivial hk.1
    · cases h
  | keyFault c st xs =>
    have hk := sameProcs_keyboardHandler (s := s) c.toNat st
    simp only [Kernel.step] at h
    split at h
    · cases h
    · rename_i hr
      rw [hr] at hk
      exact procStep_exception rfl hk h
  | execUser fname x =>
    obtain ⟨hh, h⟩ := syscall_eq h
    split at h
    · rename_i hr
      cases h
      obtain ⟨pid, hf, hp⟩ := execute_user hr
      exact .execUser hh hf hp
    · cases h
  | execFail fname x =>
    obtain ⟨hh, h⟩ := syscall_eq h
    split at h
    · cases h
    · rename_i hr
      cases h
      rcases execute_fail hr with hp | ⟨pid, hf, hp⟩
      · exact .execFail hh hp
      · exact .execTakes hh hf hp
  | halt st xs =>
    obtain ⟨hh, h⟩ := syscall_eq h
    exact procStep_halt rfl hh ⟨rfl, rfl, rfl⟩ h
  | exception v xs => exact procStep_exception rfl ⟨rfl, rfl, rfl⟩ h
  | openFd f =>
    obtain ⟨-, h⟩ := syscall_eq h
    cases h
    exact .quiet trivial (procs_sysOpen f)
  | closeFd fd =>
    obtain ⟨-, h⟩ := syscall_eq h
    cases h
    exact .quiet trivial (procs_sysClose fd)
  | read fd buf stack mem n =>
    obtain ⟨-, h⟩ := syscall_eq h
    obtain ⟨r, hr, rfl⟩ := Option.map_eq_some_iff.mp h
    exact .quiet trivial (procs_sysRead hr)
  | write fd buf mem n =>
    obtain ⟨-, h⟩ := syscall_eq h
    obtain ⟨r, hr, rfl⟩ := Option.map_eq_some_iff.mp h
    exact .quiet trivial (procs_sysWrite hr)
  | getargs after mem n =>
    obtain ⟨-, h⟩ := syscall_eq h
    cases h
    exact .quiet trivial (procs_sysGetargs after mem n)
  | vidmap a =>
    have hv := sameProcs_sysVidmap (s := s) a
    obtain ⟨-, h⟩ := syscall_eq h
    split at h
    · rename_i hr
      cases h
      rw [hr] at hv
      exact .quiet trivial hv.1
    · cases h
  | vidmapFault a xs =>
    have hv := sameProcs_sysVidmap (s := s) a
    obtain ⟨-, h⟩ := syscall_eq h
    split at h
    · cases h
    · rename_i hr
      rw [hr] at hv
      exact procStep_exception rfl hv h

/-! ## PIDs stay in range -/

/-- The scheduled terminal is one of the three, and every PID that the tables hold is one of the
six or -1. -/
structure Procs.InRange (p : Procs) : Prop where
  cur : 0 ≤ p.cur ∧ p.cur < 3
  curr : ∀ t, -1 ≤ p.curr t ∧ p.curr t < 6
  parent : ∀ q, -1 ≤ p.parent q ∧ p.parent q < 6

namespace Procs.InRange

variable {p : Procs} {pid : Int} {x : ExecIn}

theorem update {f : Int → Int} (hf : ∀ t, -1 ≤ f t ∧ f t < 6) {v : Int} (h0 : -1 ≤ v) (h6 : v < 6)
    (a t : Int) : -1 ≤ Function.update f a v t ∧ Function.update f a v t < 6 := by
  by_cases ht : t = a
  · subst ht
    simpa using ⟨h0, h6⟩
  · simpa [ht] using hf t

theorem enter (h : p.InRange) (hf : p.LowestFree pid) : (p.enter pid x).InRange where
  cur := h.cur
  curr := update h.curr (by have := hf.nonneg; omega) hf.lt p.cur
  parent := update h.parent (h.curr p.cur).1 (h.curr p.cur).2 pid

theorem launch (h : p.InRange) (hf : p.LowestFree pid) : (p.launch pid x).InRange :=
  ⟨(h.enter (x := x) hf).cur, (h.enter (x := x) hf).curr, (h.enter (x := x) hf).parent⟩

theorem reap (h : p.InRange) : p.reap.InRange where
  cur := h.cur
  curr := update h.curr (h.parent p.running).1 (h.parent p.running).2 p.cur
  parent := update h.parent (by decide) (by decide) p.running

theorem drop (h : p.InRange) (c : Int) : (p.drop c).InRange where
  cur := h.cur
  curr := update h.curr (by decide) (by decide) c
  parent := h.parent

theorem deschedule (h : p.InRange) (esp ebp : UInt32) : (p.deschedule esp ebp).count.InRange where
  cur := by
    show 0 ≤ (p.cur + 1) % 3 ∧ (p.cur + 1) % 3 < 3
    omega
  curr := h.curr
  parent := h.parent

theorem reschedule (h : p.InRange) : p.reschedule.InRange := ⟨h.cur, h.curr, h.parent⟩

end Procs.InRange

/-- **One step keeps the PIDs in range.** -/
theorem inRange_step {e : Event} (hi : s.procs.InRange) (h : s.step e = some s') :
    s'.procs.InRange := by
  cases procStep h with
  | quiet _ hp => exact hp ▸ hi
  | tick hp => exact hp ▸ (hi.deschedule _ _).reschedule
  | tickTakes _ hf hp => exact hp ▸ ((hi.deschedule _ _).enter hf).reschedule
  | tickLaunch _ hf hp => exact hp ▸ (hi.deschedule _ _).launch hf
  | execUser _ hf hp => exact hp ▸ hi.launch hf
  | execFail _ hp => exact hp ▸ hi
  | execTakes _ hf hp => exact hp ▸ hi.enter hf
  | reap _ _ _ hp => exact hp ▸ hi.reap
  | restart _ _ _ hu hr =>
    obtain ⟨q, pid, x, hq, hf, hp⟩ := restart_rule (K := Procs.InRange) (fun p hp => hp.drop _)
      (fun p pid x hp hf => (hp.drop _).enter hf) (hu.1 ▸ hi) hr
    exact hp ▸ (hq.drop _).launch hf

theorem inRange_boot (b : BootIn) : (boot b).procs.InRange := by
  have hterm : ∀ t, ((boot b).terminals t).currProcess = if 0 ≤ t ∧ t < 3 then -1 else 0 := by
    intro t
    show (if 0 ≤ t ∧ t < 3 then _ else _ : Terminal).currProcess = _
    split <;> rfl
  have hpcb : ∀ q, ((boot b).pcbs q).parentPid = 0 := by
    intro q
    show (if 0 ≤ q ∧ q < 6 then _ else _ : Pcb).parentPid = 0
    split <;> rfl
  refine ⟨?_, fun t => ?_, fun q => ?_⟩
  · show (0 : Int) ≤ 2 ∧ (2 : Int) < 3
    decide
  · show -1 ≤ ((boot b).terminals t).currProcess ∧ ((boot b).terminals t).currProcess < 6
    rw [hterm]
    split <;> decide
  · show -1 ≤ ((boot b).pcbs q).parentPid ∧ ((boot b).pcbs q).parentPid < 6
    rw [hpcb]
    decide

end Step

end Mp3
