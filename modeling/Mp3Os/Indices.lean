import Mp3Os.Files
import Mp3Os.Video

/-!
# The indices into `PCB_array` and `terminals`

The accesses that `pit_handler`, `halt`, `get_current_PCB` and `switch_terminal` make during an
event, as the source writes them (`Kernel.accesses`), with the state in which each is made.
`get_current_PCB` is called by `file_read`, also from `read_ELF`, and by `sys_getargs`.

The index of a process is that of a terminal's `curr_process`, which is -1 until the terminal has
its shell and again while `halt` restarts it; `halt` of a base shell uses its process id as the
index of a terminal. `indicesOk_iff` says exactly when all indices are in range.
-/

namespace Mp3

/-- An access `PCB_array[i]` or `terminals[j]`. -/
inductive Access where
  | pcb (i : Int)
  | term (j : Int)
  deriving DecidableEq

/-- The index is one of the table. -/
def Access.InRange : Access → Prop
  | .pcb i => 0 ≤ i ∧ i < 6
  | .term j => 0 ≤ j ∧ j < 3

instance : ∀ a : Access, Decidable a.InRange
  | .pcb _ => inferInstanceAs (Decidable (_ ∧ _))
  | .term _ => inferInstanceAs (Decidable (_ ∧ _))

namespace Kernel

variable (s : Kernel)

/-- `get_current_PCB`. -/
def currentPcbAccesses : List Access := [.pcb s.curr]

/-- `read_ELF` gets to `file_read` if the name is found. -/
def readElfAccesses (fname : Nat → UInt8) : List Access :=
  if (readDentryByName s.fs fname).isSome then s.currentPcbAccesses else []

/-- `switch_terminal`. -/
def switchAccesses (dest : Int) : List Access :=
  if dest = s.visible then []
  else if dest > 3 then []
  else [.term s.visible, .term dest]

/-- The end of `pit_handler`: what it resumes. -/
def resumeAccesses : List Access := [.term s.curTerminal, .pcb s.curr]

/-- `pit_handler`. -/
def pitAccesses (esp ebp : UInt32) (x : ExecIn) : List Access :=
  let first : List Access := [.term s.curTerminal, .pcb s.curr]
  let s := s.deschedule esp ebp
  if s.pitCount < 3 then
    first ++ s.switchAccesses s.pitCount ++ [.term s.curTerminal] ++
      s.prepareShell.readElfAccesses shellName ++
      match s.prepareShell.execute shellName x with
      | .user _ => []
      | .fail s' => s'.resumeAccesses
  else if s.pitCount = 3 then first ++ s.switchAccesses 0 ++ (s.switchTerminal 0).resumeAccesses
  else first ++ s.resumeAccesses

/-- The loop of `halt` for a process without a parent. -/
def restartAccesses (currPcb : Int) : Kernel → List ExecIn → List Access
  | _, [] => []
  | s, x :: xs =>
    let s := s.modPcb currPcb fun b => { b with pcbInUse := -1 }
    let s := s.modTerm currPcb fun t => { t with currProcess := -1 }
    let s := s.print (lit ['R', 'e', 'e', '-'])
    [.pcb currPcb, .term currPcb] ++ s.readElfAccesses shellName ++
      match s.execute shellName x with
      | .user _ => []
      | .fail s' => restartAccesses currPcb s' xs

/-- `halt`. -/
def haltAccesses (xs : List ExecIn) : List Access :=
  [.term s.curTerminal, .pcb s.curr] ++
    if (s.pcbs s.curr).parentPid = -1 then restartAccesses s.curr s xs else [.term s.curTerminal]

/-- The handler of an exception. -/
def exceptionAccesses (vector : Nat) (xs : List ExecIn) : List Access :=
  if s.HasProcess then (s.print (exceptionText vector)).haltAccesses xs else []

/-- `keyboard_handler`. -/
def keyAccesses (scanCode : Nat) : List Access :=
  if isSwitch s.flags scanCode then s.switchAccesses (scanCode - 0x3B) else []

/-- `sys_read`. -/
def readAccesses (fd : Int) (buf : Nat) : List Access :=
  if s.readTarget fd buf = .call (some .file) then s.currentPcbAccesses else []

/-- The accesses during an event. -/
def accesses : Event → List Access
  | .tick esp ebp x | .tickLaunch esp ebp x => s.pitAccesses esp ebp x
  | .key scanCode _ => s.keyAccesses scanCode.toNat
  | .keyFault scanCode st xs => s.keyAccesses scanCode.toNat ++
    match s.keyboardHandler scanCode.toNat st with
    | .ret _ => []
    | .fault s' => s'.exceptionAccesses 14 xs
  | .execUser fname _ | .execFail fname _ =>
    if s.HasProcess then s.readElfAccesses fname else []
  | .halt _ xs => if s.HasProcess then s.haltAccesses xs else []
  | .exception vector xs => s.exceptionAccesses vector xs
  | .read fd buf _ _ _ => if s.HasProcess then s.readAccesses fd buf else []
  | .getargs .. => if s.HasProcess then s.currentPcbAccesses else []
  | .vidmapFault screenStart xs =>
    if s.HasProcess then
      match s.sysVidmap screenStart with
      | .ret _ => []
      | .fault s' => s'.exceptionAccesses 14 xs
    else []
  | .openFd _ | .closeFd _ | .write .. | .vidmap _ => []

/-- The process of the terminal that a tick schedules next. -/
def nextProcess : Int := (s.terminals ((s.curTerminal + 1) % 3)).currProcess

/-- The event ends in a `halt`: its handler faults, or it is one. -/
def Halts : Event → Prop
  | .halt .. | .exception .. => s.HasProcess
  | .keyFault scanCode st _ =>
    ∃ s', s.keyboardHandler scanCode.toNat st = .fault s' ∧ s.HasProcess
  | .vidmapFault screenStart _ => ∃ s', s.sysVidmap screenStart = .fault s' ∧ s.HasProcess
  | _ => False

end Kernel

/-- All indices of an event are in range. -/
def IndicesOk (s : Kernel) (e : Event) : Prop := ∀ a ∈ s.accesses e, a.InRange

instance (s : Kernel) (e : Event) : Decidable (IndicesOk s e) :=
  inferInstanceAs (Decidable (∀ a ∈ _, _))

/-- The loop of `halt` may run for process `c`: its number is also that of a terminal, and, where
there is a shell to execute, not that of its own terminal. -/
def Kernel.MayRestart (s : Kernel) (c : Int) : Prop :=
  c < 3 ∧ ((readDentryByName s.fs shellName).isSome → c ≠ s.curTerminal)

/-- A tick is between two terminals with processes, and a process without a parent that ends may
be restarted. -/
def ProcessesThere (s : Kernel) : Event → Prop
  | .tick .. | .tickLaunch .. => 0 ≤ s.curr ∧ 0 ≤ s.nextProcess
  | e => s.Halts e → s.procs.parent s.procs.running = -1 → e.halts ≠ some [] → s.MayRestart s.curr

/-- The indices that stay in range on every run. -/
structure Kernel.RangesOk (s : Kernel) : Prop where
  procs : s.procs.InRange
  visible : 0 ≤ s.visible ∧ s.visible < 3

section Accesses

variable {s s' : Kernel} {e : Event}

theorem curr_lt (h : s.procs.InRange) : s.curr < 6 := (h.curr s.curTerminal).2

/-- An access through the process of the scheduled terminal. -/
theorem currentPcb_iff (h : s.procs.InRange) :
    (∀ a ∈ s.currentPcbAccesses, a.InRange) ↔ s.HasProcess := by
  simp only [Kernel.currentPcbAccesses, List.mem_singleton, forall_eq, Access.InRange]
  exact and_iff_left (curr_lt h)

theorem readElf_iff (h : s.procs.InRange) (fname : Nat → UInt8) :
    (∀ a ∈ s.readElfAccesses fname, a.InRange) ↔
      ((readDentryByName s.fs fname).isSome → s.HasProcess) := by
  unfold Kernel.readElfAccesses
  split
  · rename_i hd
    rw [currentPcb_iff h]
    exact ⟨fun h _ => h, fun h => h hd⟩
  · rename_i hd
    exact ⟨fun _ h => absurd h hd, fun _ a ha => by cases ha⟩

/-- The destinations of `switch_terminal` are terminals. -/
theorem switch_inRange (h : s.RangesOk) {d : Int} (h0 : 0 ≤ d) (h3 : d < 3) :
    ∀ a ∈ s.switchAccesses d, a.InRange := by
  have hv := h.visible
  intro a ha
  unfold Kernel.switchAccesses at ha
  split_ifs at ha
  · cases ha
  · cases ha
  · simp only [List.mem_cons, List.not_mem_nil, or_false] at ha
    rcases ha with rfl | rfl
    · exact hv
    · exact ⟨h0, h3⟩

theorem resume_iff (h : s.procs.InRange) :
    (∀ a ∈ s.resumeAccesses, a.InRange) ↔ s.HasProcess := by
  have hc := h.cur
  have hlt := curr_lt h
  simp only [Kernel.resumeAccesses, List.mem_cons, List.not_mem_nil, or_false, forall_eq_or_imp,
    forall_eq, Access.InRange]
  exact ⟨fun h => h.2.1, fun h => ⟨hc, h, hlt⟩⟩

/-! ### A tick -/

/-- An `execute` that fails without a process on the terminal leaves none there. -/
theorem fail_hasProcess {u : Kernel} {fname : Nat → UInt8} {x : ExecIn}
    (hi : s.procs.InRange) (hu : s.execute fname x = .fail u) :
    u.procs.InRange ∧ (s.HasProcess → u.HasProcess) := by
  have hrun : ∀ v : Kernel, v.HasProcess ↔ 0 ≤ v.procs.running := fun _ => Iff.rfl
  rw [hrun, hrun]
  rcases execute_fail hu with hp | ⟨pid, hf, hp⟩ <;> rw [hp]
  · exact ⟨hi, id⟩
  · refine ⟨hi.enter hf, fun _ => ?_⟩
    simpa [Procs.running, Procs.enter] using hf.nonneg

theorem execute_not_found {fname : Nat → UInt8} {x : ExecIn}
    (h : readDentryByName s.fs fname = none) : s.execute fname x = .fail (s.looked fname) := by
  rw [execute_eq]
  simp [FileSys.header, h]

theorem deschedule_inRange (h : s.procs.InRange) (esp ebp : UInt32) :
    (s.deschedule esp ebp).procs.InRange := by
  have hd := h.deschedule esp ebp
  rw [procs_deschedule]
  exact ⟨hd.cur, hd.curr, hd.parent⟩

/-- **The indices of a tick are in range exactly if both terminals have a process.** -/
theorem pit_iff (h : s.RangesOk) (esp ebp : UInt32) (x : ExecIn) :
    (∀ a ∈ s.pitAccesses esp ebp x, a.InRange) ↔ 0 ≤ s.curr ∧ 0 ≤ s.nextProcess := by
  have hfirst : (∀ a ∈ ([.term s.curTerminal, .pcb s.curr] : List Access), a.InRange) ↔
      0 ≤ s.curr := resume_iff h.procs
  have hd : (s.deschedule esp ebp).RangesOk := ⟨deschedule_inRange h.procs esp ebp, h.visible⟩
  have hcurr : ∀ u : Kernel, u.procs.running = (s.procs.deschedule esp ebp).running →
      (u.HasProcess ↔ 0 ≤ s.nextProcess) := by
    intro u hu
    have hc : u.curr = s.nextProcess := hu
    rw [Kernel.HasProcess, hc]
  unfold Kernel.pitAccesses
  dsimp only
  rw [show (s.deschedule esp ebp).pitCount = s.pitCount from rfl]
  split
  · rename_i hc
    have hp : (s.deschedule esp ebp).prepareShell.procs = (s.procs.deschedule esp ebp).count :=
      count_deschedule_lt hc
    have hpi : (s.deschedule esp ebp).prepareShell.procs.InRange := hp ▸ h.procs.deschedule esp ebp
    have hnext := hcurr (s.deschedule esp ebp).prepareShell (by rw [hp]; rfl)
    have hsw := switch_inRange hd (d := s.pitCount) (by omega) (by omega)
    have hterm : (Access.term (s.deschedule esp ebp).curTerminal).InRange := hd.procs.cur
    generalize (s.deschedule esp ebp).prepareShell = p at hpi hnext
    simp only [List.forall_mem_append, hfirst, readElf_iff hpi, hnext, List.mem_singleton,
      forall_eq, hterm, and_true]
    constructor
    · rintro ⟨⟨⟨hc, -⟩, hfound⟩, hresume⟩
      refine ⟨hc, ?_⟩
      cases hd : readDentryByName p.fs shellName with
      | some d => exact hfound (by rw [hd]; rfl)
      | none =>
        rw [execute_not_found hd] at hresume
        exact hnext.mp ((resume_iff (s := p.looked shellName) hpi).mp hresume)
    · rintro ⟨hc, hn⟩
      refine ⟨⟨⟨hc, hsw⟩, fun _ => hn⟩, ?_⟩
      cases he : p.execute shellName x with
      | user u => exact fun a ha => by cases ha
      | fail u =>
        obtain ⟨hui, hu⟩ := fail_hasProcess hpi he
        exact (resume_iff hui).mpr (hu (hnext.mpr hn))
  split
  · have hp := procs_switchTerminal (s := s.deschedule esp ebp) 0
    have hnext := hcurr ((s.deschedule esp ebp).switchTerminal 0) (by rw [hp, procs_deschedule])
    have hsw := switch_inRange hd (d := 0) (by omega) (by omega)
    simp only [List.forall_mem_append, hfirst, resume_iff (hp ▸ hd.procs), hnext]
    exact ⟨fun h => ⟨h.1.1, h.2⟩, fun h => ⟨⟨h.1, hsw⟩, h.2⟩⟩
  · have hnext := hcurr (s.deschedule esp ebp) (by rw [procs_deschedule])
    simp only [List.forall_mem_append, hfirst, resume_iff hd.procs, hnext]

/-! ### A `halt` -/

/-- **The indices of the loop of `halt`.** -/
theorem restart_iff {c : Int} (h0 : 0 ≤ c) (h6 : c < 6) (xs : List ExecIn) (hi : s.procs.InRange)
    (hc : c ≠ s.curTerminal → s.HasProcess) :
    (∀ a ∈ Kernel.restartAccesses c s xs, a.InRange) ↔ (xs ≠ [] → s.MayRestart c) := by
  induction xs generalizing s with
  | nil => exact ⟨fun _ h => absurd rfl h, fun _ a ha => by cases ha⟩
  | cons x xs ih =>
    have hd := procs_dropped (s := s) c (lit ['R', 'e', 'e', '-'])
    simp only [Kernel.restartAccesses]
    generalize hu : ((s.modPcb c fun b => { b with pcbInUse := -1 }).modTerm c fun t =>
      { t with currProcess := -1 }).print (lit ['R', 'e', 'e', '-']) = u at hd
    have hfs : u.fs = s.fs := by rw [← hu]; rfl
    have hcur : u.curTerminal = s.curTerminal := congrArg Procs.cur hd
    have hui : u.procs.InRange := hd ▸ hi.drop c
    have hproc : u.HasProcess ↔ c ≠ s.curTerminal := by
      show 0 ≤ u.procs.running ↔ _
      rw [hd]
      by_cases hcc : s.curTerminal = c
      · simp [Procs.running, Procs.drop, Kernel.procs, hcc]
      · have hk := hc fun h => hcc h.symm
        have hk : 0 ≤ (s.terminals s.curTerminal).currProcess := hk
        simp [Procs.running, Procs.drop, Kernel.procs, hcc, hk, Ne.symm hcc]
    have hrest : (∀ a ∈ (match u.execute shellName x with
        | .user _ => []
        | .fail s' => Kernel.restartAccesses c s' xs), a.InRange) ↔
        ((∃ s', u.execute shellName x = .fail s') → xs ≠ [] → s.MayRestart c) := by
      cases he : u.execute shellName x with
      | user v =>
        refine ⟨fun _ hf => ?_, fun _ a ha => by cases ha⟩
        obtain ⟨_, hf⟩ := hf
        cases hf
      | fail v =>
        obtain ⟨hvi, hv⟩ := fail_hasProcess hui he
        have hvcur : v.curTerminal = s.curTerminal := by
          rw [← hcur]
          show v.procs.cur = u.procs.cur
          rcases execute_fail he with hp | ⟨pid, -, hp⟩ <;> rw [hp]
          rfl
        have hvfs : readDentryByName v.fs shellName = readDentryByName s.fs shellName := by
          rw [← hfs]
          exact readDentryByName_of_disk (congrArg Files.disk (execute_files (.inr he))) _
        rw [ih hvi (fun hne => hv (hproc.mpr (hvcur ▸ hne)))]
        simp only [Kernel.MayRestart, hvcur, hvfs]
        exact ⟨fun h _ => h, fun h => h ⟨v, rfl⟩⟩
    have hloop : (∀ a ∈ ([.pcb c, .term c] : List Access), a.InRange) ↔ c < 3 := by
      simp only [List.mem_cons, List.not_mem_nil, or_false, forall_eq_or_imp, forall_eq,
        Access.InRange]
      omega
    rw [List.forall_mem_append, List.forall_mem_append, hloop, readElf_iff hui, hfs, hproc, hrest]
    constructor
    · rintro ⟨⟨h3, hfound⟩, -⟩ -
      exact ⟨h3, hfound⟩
    · intro h
      have hm := h (by simp)
      exact ⟨⟨hm.1, hm.2⟩, fun _ _ => hm⟩

/-- A `halt` in a state `u` with the processes of `s`. -/
theorem halt_iff {u : Kernel} {xs : List ExecIn} (hi : s.procs.InRange) (hh : s.HasProcess)
    (hp : u.procs = s.procs) (hf : u.fs = s.fs) :
    (∀ a ∈ u.haltAccesses xs, a.InRange) ↔
      (s.procs.parent s.procs.running = -1 → xs ≠ [] → s.MayRestart s.curr) := by
  have hui : u.procs.InRange := hp ▸ hi
  have hcurr : u.curr = s.curr := congrArg Procs.running hp
  have hcur : u.curTerminal = s.curTerminal := congrArg Procs.cur hp
  have huh : u.HasProcess := by
    rw [Kernel.HasProcess, hcurr]
    exact hh
  have hpar : (u.pcbs u.curr).parentPid = s.procs.parent s.procs.running :=
    congrArg (fun q : Procs => q.parent q.running) hp
  have hfirst : ∀ a ∈ ([.term u.curTerminal, .pcb u.curr] : List Access), a.InRange :=
    (resume_iff hui).mpr huh
  have hrestart := restart_iff huh (curr_lt hui) xs hui fun _ => huh
  have hmay : u.MayRestart u.curr ↔ s.MayRestart s.curr := by
    rw [Kernel.MayRestart, Kernel.MayRestart, hcurr, hcur, hf]
  unfold Kernel.haltAccesses
  rw [List.forall_mem_append, hpar]
  split
  · rename_i hroot
    rw [hrestart, hmay]
    exact ⟨fun h _ => h.2, fun h => ⟨hfirst, h hroot⟩⟩
  · rename_i hroot
    refine ⟨fun _ h => absurd h hroot, fun _ => ⟨hfirst, fun a ha => ?_⟩⟩
    rw [List.mem_singleton] at ha
    rw [ha]
    exact hui.cur

/-- An exception in a state `u` with the processes of `s`. -/
theorem exception_iff {u : Kernel} (v : Nat) (xs : List ExecIn) (hi : s.procs.InRange)
    (hu : SameProcs s u) :
    (∀ a ∈ u.exceptionAccesses v xs, a.InRange) ↔
      (s.HasProcess → s.procs.parent s.procs.running = -1 → xs ≠ [] → s.MayRestart s.curr) := by
  have hcurr : u.curr = s.curr := congrArg Procs.running hu.procs
  have hproc : u.HasProcess ↔ s.HasProcess := by rw [Kernel.HasProcess, Kernel.HasProcess, hcurr]
  unfold Kernel.exceptionAccesses
  split
  · rename_i hh
    have hsh := hproc.mp hh
    rw [halt_iff (u := u.print (exceptionText v)) hi hsh (by rw [procs_print, hu.procs]) hu.fs]
    exact ⟨fun h _ => h, fun h => h hsh⟩
  · rename_i hh
    exact ⟨fun _ h => absurd (hproc.mpr h) hh, fun _ a ha => by cases ha⟩

theorem key_inRange (h : s.RangesOk) (c : Nat) : ∀ a ∈ s.keyAccesses c, a.InRange := by
  unfold Kernel.keyAccesses
  split
  · rename_i hs
    have hc : c = 0x3B ∨ c = 0x3C ∨ c = 0x3D := hs.1
    exact switch_inRange h (by omega) (by omega)
  · exact fun a ha => by cases ha

/-- **The indices of one event.** -/
theorem indicesOk_step_iff (h : s.RangesOk) (e : Event) : IndicesOk s e ↔ ProcessesThere s e := by
  have hnil : ∀ xs : List ExecIn, some xs ≠ some [] ↔ xs ≠ [] := fun xs => by simp
  have htrue : ∀ {p q : Prop}, p → q → (p ↔ q) := iff_of_true
  have hproc : ∀ {l : List Access}, (s.HasProcess → ∀ a ∈ l, a.InRange) →
      ∀ a ∈ (if s.HasProcess then l else []), a.InRange := by
    intro l hl
    split
    · rename_i hh
      exact hl hh
    · exact fun a ha => by cases ha
  unfold IndicesOk
  cases e with
  | tick esp ebp x => exact pit_iff h esp ebp x
  | tickLaunch esp ebp x => exact pit_iff h esp ebp x
  | key c st => exact htrue (key_inRange h c.toNat) fun hf => absurd hf id
  | keyFault c st xs =>
    have hk := sameProcs_keyboardHandler (s := s) c.toNat st
    simp only [Kernel.accesses, ProcessesThere, Kernel.Halts, List.forall_mem_append]
    cases hr : s.keyboardHandler c.toNat st with
    | ret u =>
      refine htrue ⟨key_inRange h c.toNat, fun a ha => by cases ha⟩ fun hf => ?_
      obtain ⟨_, hf, -⟩ := hf
      cases hf
    | fault u =>
      rw [hr] at hk
      simp only
      rw [exception_iff (u := u) _ _ h.procs hk, and_iff_right (key_inRange h c.toNat)]
      exact ⟨fun h ⟨_, _, hh⟩ hroot hxs => h hh hroot ((hnil xs).mp hxs),
        fun h hh hroot hxs => h ⟨u, rfl, hh⟩ hroot ((hnil xs).mpr hxs)⟩
  | execUser fname x =>
    exact htrue (hproc fun hh => (readElf_iff h.procs fname).mpr fun _ => hh) fun hf => absurd hf id
  | execFail fname x =>
    exact htrue (hproc fun hh => (readElf_iff h.procs fname).mpr fun _ => hh) fun hf => absurd hf id
  | halt ebx xs =>
    by_cases hh : s.HasProcess
    · simp only [Kernel.accesses, hh, ↓reduceIte]
      rw [halt_iff h.procs hh rfl rfl]
      exact ⟨fun h _ hroot hxs => h hroot ((hnil xs).mp hxs),
        fun h hroot hxs => h hh hroot ((hnil xs).mpr hxs)⟩
    · exact htrue (hproc fun hp => absurd hp hh) fun hp => absurd hp hh
  | exception v xs =>
    have hx := exception_iff (u := s) v xs h.procs ⟨rfl, rfl, rfl⟩
    simp only [Kernel.accesses]
    rw [hx]
    exact ⟨fun h hh hroot hxs => h hh hroot ((hnil xs).mp hxs),
      fun h hh hroot hxs => h hh hroot ((hnil xs).mpr hxs)⟩
  | read fd buf stack mem n =>
    refine htrue (hproc fun hh => ?_) fun hf => absurd hf id
    unfold Kernel.readAccesses
    split
    · exact (currentPcb_iff h.procs).mpr hh
    · exact fun a ha => by cases ha
  | getargs after mem n =>
    exact htrue (hproc fun hh => (currentPcb_iff h.procs).mpr hh) fun hf => absurd hf id
  | vidmapFault a xs =>
    have hk := sameProcs_sysVidmap (s := s) a
    simp only [Kernel.accesses, ProcessesThere, Kernel.Halts]
    by_cases hh : s.HasProcess
    · simp only [hh, ↓reduceIte, and_true]
      cases hr : s.sysVidmap a with
      | ret u =>
        refine htrue (fun a ha => by cases ha) fun hf => ?_
        obtain ⟨_, hf⟩ := hf
        cases hf
      | fault u =>
        rw [hr] at hk
        simp only
        rw [exception_iff (u := u) _ _ h.procs hk]
        exact ⟨fun h _ hroot hxs => h hh hroot ((hnil xs).mp hxs),
          fun h _ hroot hxs => h ⟨u, rfl⟩ hroot ((hnil xs).mpr hxs)⟩
    · exact htrue (hproc fun hp => absurd hp hh) fun ⟨_, _, hp⟩ => absurd hp hh
  | _ => exact htrue (fun a ha => by cases ha) fun hf => absurd hf id

/-! ### Along a run -/

theorem rangesOk_of_wf (hp : s.procs.InRange) (hv : s.vid.Wf) : s.RangesOk := by
  obtain ⟨i, hi⟩ := hv.visible
  have hi : s.visible = i := hi
  exact ⟨hp, by omega⟩

/-- **The indices along a run.** From every state that is reached from boot, all indices of a run
are in range exactly if each tick is between two terminals with processes and each process without
a parent that ends may be restarted. -/
theorem indicesOk_iff {b : BootIn} {es₀ : List Event} {s : Kernel}
    (hr : kernel.run (boot b) es₀ = some s) (es : List Event) :
    kernel.Along IndicesOk s es ↔ kernel.Along ProcessesThere s es := by
  have hstep : ∀ u e u', u.procs.InRange ∧ u.vid.Wf → kernel.step u e = some u' →
      u'.procs.InRange ∧ u'.vid.Wf := fun _ _ _ hu hs =>
    ⟨inRange_step hu.1 hs, vid_wf_step hu.2 hs⟩
  have hs : s.procs.InRange ∧ s.vid.Wf :=
    Lts.run_inv' (I := fun u : Kernel => u.procs.InRange ∧ u.vid.Wf) hstep
      ⟨inRange_boot b, vid_wf_boot b⟩ hr
  exact Lts.along_congr (I := fun u : Kernel => u.procs.InRange ∧ u.vid.Wf) hstep
    (fun u e hu => indicesOk_step_iff (rangesOk_of_wf hu.1 hu.2) e) hs

theorem indicesOk_sample :
    ∃ s, kernel.run (boot sampleBoot) sampleLaunches = some s ∧
      kernel.Along IndicesOk s [.tick 0 0 sampleExec, .halt 0 []] := by
  have hv : (kernel.run (boot sampleBoot) sampleLaunches).map (fun s =>
      (s.curr, s.nextProcess)) = some (2, 0) := by decide +kernel
  obtain ⟨s, hs, hv⟩ := Option.map_eq_some_iff.mp hv
  obtain ⟨hc, hn⟩ := Prod.mk.inj hv
  refine ⟨s, hs, (indicesOk_iff hs _).mpr ⟨⟨by omega, by omega⟩, fun u _ => ?_⟩⟩
  exact ⟨fun _ _ hxs => absurd rfl hxs, fun _ _ => trivial⟩

/-- The first tick saves the stack of a process -1. -/
theorem first_tick_out_of_range : ¬ kernel.Along IndicesOk (boot sampleBoot) [sampleLaunch] := by
  intro ha
  have hok : IndicesOk (boot sampleBoot) sampleLaunch := ha.1
  exact absurd hok (by decide +kernel)

end Accesses

end Mp3
