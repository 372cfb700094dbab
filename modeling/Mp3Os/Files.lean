import Mp3Os.Procs

/-!
# The open files apart from the rest

`Files` is the part of the state that descriptors are about: the descriptor tables, the globals
`currPid` and `currFD`, and the disk. `Kernel.files` takes it out of the kernel.

* `sysOpen_eq`, `sysClose_eq`: the two calls in one equation each. The name and the lowest free
  descriptor (`freeFd`) decide how a `sys_open` ends.
* `filesStep` says what every event does to the open files: only `sys_open`, `sys_close`,
  `file_read` and the `halt` of a process with a parent touch them (`FilesStep`).
* `entries_step`: the rule for properties of single entries.
-/

namespace Mp3

/-- The file system without the directory cursor and the last lookup. -/
def FileSys.disk (fs : FileSys) : FileSys :=
  { fs with curfile := 0, currDentry := ⟨Buf.zero, 0, 0⟩ }

/-- The descriptor tables, the globals of `syscall.c`, and the disk. -/
@[ext] structure Files where
  table : Int → Int → FdEntry
  currPid : Int
  currFD : Int
  disk : FileSys

/-- The part of the state that is about open files. -/
def Kernel.files (s : Kernel) : Files where
  table := s.fdEntry
  currPid := s.currPid
  currFD := s.currFD
  disk := s.fs.disk

namespace Files

variable (F : Files)

/-- `PCB_array[p].fd_table[fd] = e`. -/
def set (p fd : Int) (e : FdEntry) : Files :=
  { F with table := Function.update F.table p (Function.update (F.table p) fd e) }

/-- What `halt` makes of the table of `p`. -/
def clear (p : Int) : Files :=
  { F with table := Function.update F.table p fun i =>
      if 2 ≤ i ∧ i < 8 then ⟨-1, 0, -1, none, -1⟩ else F.table p i }

/-- The descriptor that `get_fdAvail` gives out. -/
structure LowestFree (p fd : Int) : Prop where
  ge : 2 ≤ fd
  lt : fd < 8
  free : (F.table p fd).present = -1
  lower : ∀ i, 2 ≤ i → i < fd → (F.table p i).present ≠ -1

/-- All descriptors of `p` are in use. -/
def Full (p : Int) : Prop := ∀ i, 2 ≤ i → i < 8 → (F.table p i).present ≠ -1

@[simp] theorem set_table_self (p fd : Int) (e : FdEntry) : (F.set p fd e).table p fd = e := by
  simp [set]

theorem set_table_of_ne {p fd q i : Int} (e : FdEntry) (h : ¬ (q = p ∧ i = fd)) :
    (F.set p fd e).table q i = F.table q i := by
  by_cases hq : q = p
  · subst hq
    have hi : i ≠ fd := fun hi => h ⟨rfl, hi⟩
    simp [set, hi]
  · simp [set, hq]

theorem set_table (p fd q i : Int) (e : FdEntry) :
    (F.set p fd e).table q i = if q = p ∧ i = fd then e else F.table q i := by
  split
  · rename_i h
    rw [h.1, h.2, set_table_self]
  · rename_i h
    exact F.set_table_of_ne e h

theorem clear_table (p q i : Int) :
    (F.clear p).table q i =
      if q = p ∧ 2 ≤ i ∧ i < 8 then ⟨-1, 0, -1, none, -1⟩ else F.table q i := by
  by_cases hq : q = p
  · subst hq
    simp [clear]
  · simp [clear, hq]

end Files

/-- What `insert_fdt` makes of a free entry; the position is left as it is. -/
def FdEntry.opened (e : FdEntry) (d : Dentry) : FdEntry where
  present := 0
  filePos := e.filePos
  inodeNumber := i32 d.inodeNum
  jumpStartIdx := Kernel.opsOf (i32 d.fileType) e.jumpStartIdx
  fileType := i32 d.fileType

namespace Kernel

variable (s : Kernel)

/-- The first free descriptor of the process that calls. -/
def freeFd : Option Int :=
  ([2, 3, 4, 5, 6, 7] : List Int).find? fun i => (s.fdEntry s.curr i).present = -1

/-- `sys_open` of the entry `d` as descriptor `fd`. -/
def openedAs (filename : Nat → UInt8) (d : Dentry) (fd : Int) : Kernel :=
  { (s.looked filename).setFd s.curr fd ((s.fdEntry s.curr fd).opened d) with
    currFD := fd
    currPid := s.curr }

/-- A `sys_open` that fails, of a name that is not empty. -/
def notOpened (filename : Nat → UInt8) : Kernel :=
  { s.looked filename with currFD := -1, currPid := s.curr }

/-- `sys_close` of an open descriptor. -/
def closed (fd : Int) : Kernel :=
  { s.setFd s.curr fd { s.fdEntry s.curr fd with present := -1 } with currFD := s.currFD - 1 }

/-- The descriptor is one that `sys_close` closes. -/
def Closes (fd : Int) : Prop := 2 < fd ∧ fd < 6 ∧ (s.fdEntry s.curr fd).present = 0

instance (fd : Int) : Decidable (s.Closes fd) := inferInstanceAs (Decidable (_ ∧ _))

end Kernel

/-! ## The two calls -/

section Calls

variable {s : Kernel} {f : Nat → UInt8} {fd : Int}

/-- A lookup does not change what later lookups find. -/
theorem readDentryByName_opened (fs : FileSys) (f g : Nat → UInt8) :
    readDentryByName (fs.opened f) g = readDentryByName fs g := by
  obtain ⟨d, hd⟩ := opened_eq fs f
  rw [hd]
  rfl

theorem setFd_setFd (p : Int) (e e' : FdEntry) : (s.setFd p fd e).setFd p fd e' = s.setFd p fd e' := by
  simp [Kernel.setFd, Kernel.modPcb]

theorem getFdAvail_none (h : s.freeFd = none) : s.getFdAvail s.curr = (-1, s) := by
  unfold Kernel.freeFd at h
  rw [Kernel.getFdAvail, h]

theorem getFdAvail_some (h : s.freeFd = some fd) :
    s.getFdAvail s.curr = (fd, s.setFd s.curr fd { s.fdEntry s.curr fd with present := 0 }) := by
  unfold Kernel.freeFd at h
  rw [Kernel.getFdAvail, h]

/-- What `get_fdAvail` gives out. -/
theorem freeFd_some (h : s.freeFd = some fd) : s.files.LowestFree s.curr fd := by
  obtain ⟨hmem, hf, hlow⟩ := Search.find?_lowest (by decide) h
  simp only [List.mem_cons, List.not_mem_nil, or_false] at hmem
  refine ⟨by omega, by omega, by simpa [Kernel.files] using hf, fun i h2 hi => ?_⟩
  have hne := hlow i (by simp; omega) hi
  simpa [Kernel.files] using hne

theorem freeFd_none (h : s.freeFd = none) : s.files.Full s.curr := by
  intro i h2 h8
  have hne := List.find?_eq_none.mp h i (by simp; omega)
  simpa [Kernel.files] using hne

/-- `insert_fdt`: the second lookup of the name finds what the first one found. -/
theorem insertFdt_eq (s : Kernel) (f : Nat → UInt8) : s.insertFdt f =
    match readDentryByName s.fs f, s.freeFd with
    | some d, some fd =>
      (fd, (s.looked f).setFd s.curr fd ((s.fdEntry s.curr fd).opened d))
    | _, _ => (-1, s.looked f) := by
  have hopen : s.fileOpen f =
      (if (readDentryByName s.fs f).isSome then 0 else -1, s.looked f) := rfl
  rw [Kernel.insertFdt, hopen]
  cases hd : readDentryByName s.fs f with
  | none => rfl
  | some d =>
    have hlook : readDentryByName (s.looked f).fs f = some d := by
      rw [← hd]
      exact readDentryByName_opened ..
    cases hf : s.freeFd with
    | none =>
      have hav := getFdAvail_none (s := s.looked f) hf
      simp only [Option.isSome_some, ↓reduceIte, hav]
      rfl
    | some fd =>
      have hav := getFdAvail_some (s := s.looked f) hf
      have hne : fd ≠ -1 := by have := (freeFd_some hf).ge; omega
      have hread : readDentryByName ((s.looked f).setFd (s.looked f).curr fd
          { (s.looked f).fdEntry (s.looked f).curr fd with present := 0 }).fs f = some d := hlook
      simp only [Option.isSome_some, ↓reduceIte, hav, hne, hread, setFd_setFd,
        Kernel.fdEntry_setFd_self]
      rfl

/-- **`sys_open` in one equation.** -/
theorem sysOpen_eq (s : Kernel) (f : Nat → UInt8) : s.sysOpen f =
    if f 0 = 0 then (-1, s)
    else match readDentryByName s.fs f, s.freeFd with
      | some d, some fd => (fd, s.openedAs f d fd)
      | _, _ => (-1, s.notOpened f) := by
  unfold Kernel.sysOpen
  rw [insertFdt_eq]
  split
  · rfl
  · cases readDentryByName s.fs f with
    | none => rfl
    | some d =>
      cases s.freeFd with
      | none => rfl
      | some fd => rfl

/-- A `sys_open` that fails, of a name that is not empty. -/
theorem sysOpen_fails (h0 : f 0 ≠ 0) (h : (s.sysOpen f).1 = -1) :
    (s.sysOpen f).2 = s.notOpened f := by
  rw [sysOpen_eq, if_neg h0] at h ⊢
  cases hd : readDentryByName s.fs f with
  | none => rfl
  | some d =>
    cases hf : s.freeFd with
    | none => rfl
    | some fd =>
      rw [hd, hf] at h
      have hge := (freeFd_some hf).ge
      have h : fd = -1 := h
      omega

/-- **`sys_close` in one equation.** -/
theorem sysClose_eq (s : Kernel) (fd : Int) :
    s.sysClose fd = if s.Closes fd then (0, s.closed fd) else (-1, s) := by
  unfold Kernel.sysClose Kernel.removeFdEntry
  by_cases hr : fd ≤ 2 ∨ fd ≥ 6
  · rw [if_pos hr, if_neg fun hc : s.Closes fd => by have := hc.1; have := hc.2.1; omega]
  · rw [if_neg hr]
    by_cases hp : (s.fdEntry s.curr fd).present = 0
    · have hc : s.Closes fd := ⟨by omega, by omega, hp⟩
      simp only [hp, hc, ↓reduceIte]
      rfl
    · have hc : ¬ s.Closes fd := fun hc => hp hc.2.2
      simp only [hp, hc, ↓reduceIte]
      rfl

end Calls

/-! ## What an event does to the open files -/

/-- The events other than `sys_open` and `sys_close`. -/
def Event.LeavesFiles : Event → Prop
  | .openFd .. | .closeFd .. => False
  | _ => True

/-- What an event does to the open files: every way in which it can end. -/
inductive FilesStep (s : Kernel) : Event → Kernel → Prop
  | same {e : Event} {s' : Kernel} : e.LeavesFiles →
      (e.halts = none ∨ s.procs.parent s.procs.running = -1) → s'.files = s.files →
      FilesStep s e s'
  | openFd {f : Nat → UInt8} {s' : Kernel} : s.HasProcess → s' = (s.sysOpen f).2 →
      FilesStep s (.openFd f) s'
  | closeFd {fd : Int} {s' : Kernel} : s.HasProcess → s' = (s.sysClose fd).2 →
      FilesStep s (.closeFd fd) s'
  | fileRead {fd : Int} {buf : Nat} {stack mem : Nat → UInt8} {n : Int} {s' : Kernel} :
      s.HasProcess → s.readTarget fd buf = .call (some .file) →
      s' = (s.fileRead fd mem n).2.2 → FilesStep s (.read fd buf stack mem n) s'
  | reap {e : Event} {xs : List ExecIn} {s' : Kernel} : e.halts = some xs → s.HasProcess →
      s.procs.parent s.procs.running ≠ -1 → s'.files = s.files.clear s.curr → FilesStep s e s'

section Step

variable {s s' : Kernel}

@[simp] theorem disk_opened (fs : FileSys) (f : Nat → UInt8) : (fs.opened f).disk = fs.disk := by
  obtain ⟨d, hd⟩ := opened_eq fs f
  rw [hd]
  rfl

theorem disk_dirRead (fs : FileSys) (stack buf : Nat → UInt8) (n : Int) :
    (dirRead fs stack buf n).2.2.disk = fs.disk := by
  unfold dirRead
  dsimp only
  split <;> rfl

/-- A change to other fields of a PCB. -/
theorem files_modPcb {q : Int} {f : Pcb → Pcb} (h : (f (s.pcbs q)).fdTable = (s.pcbs q).fdTable) :
    (s.modPcb q f).files = s.files := by
  have ht : (s.modPcb q f).fdEntry = s.fdEntry := by
    funext p fd
    by_cases hp : p = q
    · subst hp
      simp [Kernel.fdEntry, Kernel.modPcb, h]
    · simp [Kernel.fdEntry, Kernel.modPcb, hp]
  simp only [Kernel.files, ht]
  rfl

theorem files_setFd (p fd : Int) (e : FdEntry) : (s.setFd p fd e).files = s.files.set p fd e := by
  have ht : (s.setFd p fd e).fdEntry = (s.files.set p fd e).table := by
    funext q i
    by_cases hq : q = p
    · subst hq
      simp [Kernel.fdEntry, Kernel.setFd, Kernel.modPcb, Files.set, Kernel.files]
      rfl
    · simp [Kernel.fdEntry, Kernel.setFd, Kernel.modPcb, Files.set, Kernel.files, hq]
  simp only [Kernel.files, ht]
  rfl

@[simp] theorem files_looked (f : Nat → UInt8) : (s.looked f).files = s.files := by
  have hd : (s.looked f).fs.disk = s.fs.disk := disk_opened ..
  simp only [Kernel.files, hd]
  rfl

theorem files_of_differs (h : s.DiffersInTerminals s') : s'.files = s.files := by
  obtain ⟨_, _, _, _, _, _, rfl⟩ := h
  rfl

theorem fdEntry_setFd (p fd q i : Int) (r : FdEntry) : (s.setFd p fd r).fdEntry q i =
    if q = p ∧ i = fd then r else s.fdEntry q i := by
  have h := congrFun (congrFun (congrArg Files.table (files_setFd (s := s) p fd r)) q) i
  exact h.trans (s.files.set_table p fd q i r)

theorem fdEntry_openedAs (f : Nat → UInt8) (d : Dentry) (fd p i : Int) :
    (s.openedAs f d fd).fdEntry p i =
      if p = s.curr ∧ i = fd then (s.fdEntry s.curr fd).opened d else s.fdEntry p i :=
  fdEntry_setFd (s := s.looked f) s.curr fd p i _

theorem fdEntry_closed (fd p i : Int) : (s.closed fd).fdEntry p i =
    if p = s.curr ∧ i = fd then { s.fdEntry s.curr fd with present := -1 } else s.fdEntry p i :=
  fdEntry_setFd s.curr fd p i _

/-! ### Processes -/

theorem files_entered (fname : Nat → UInt8) (pid : Int) (x : ExecIn) :
    (s.entered fname pid x).files = s.files := by
  calc (s.entered fname pid x).files
      = (((s.looked fname).modPcb pid fun b => { b with pcbInUse := 0 }).modPcb pid fun b =>
          { b with
            esp := x.esp
            ebp := x.ebp
            returnLabelAdd := x.retLabel
            esp0 := s.tss.esp0
            ss0 := s.tss.ss0.toUInt32
            parentPid := s.curr }).files := rfl
    _ = s.files := by rw [files_modPcb rfl, files_modPcb rfl, files_looked]

theorem files_started (fname : Nat → UInt8) (pid : Int) (x : ExecIn) (buf : Nat → UInt8) :
    (s.started fname pid x buf).files = s.files := by
  have h := files_looked (s := s.entered fname pid x) fun i => if i < 128 then fname i else 0
  rw [files_entered] at h
  rw [← h]
  rfl

/-- `execute` opens no file. -/
theorem execute_files {fname : Nat → UInt8} {x : ExecIn}
    (h : s.execute fname x = .user s' ∨ s.execute fname x = .fail s') : s'.files = s.files := by
  rw [execute_eq] at h
  cases hb : s.fs.header fname x.buf with
  | none =>
    rw [hb] at h
    rcases h with h | h <;> cases h
    exact files_looked fname
  | some buf =>
    cases hp : s.freePid with
    | none =>
      rw [hb, hp] at h
      rcases h with h | h <;> cases h
      exact files_looked fname
    | some pid =>
      rw [hb, hp] at h
      simp only at h
      split at h <;> rcases h with h | h <;> cases h
      · exact files_started ..
      · exact files_entered ..

/-- The loop of `halt` closes no file. -/
theorem restart_files {c : Int} {xs : List ExecIn} (h : Kernel.restart c s xs = some s') :
    s'.files = s.files := by
  induction xs generalizing s with
  | nil => cases h
  | cons x xs ih =>
    simp only [Kernel.restart] at h
    have hd : (((s.modPcb c fun b => { b with pcbInUse := -1 }).modTerm c fun t =>
        { t with currProcess := -1 }).print (lit ['R', 'e', 'e', '-'])).files = s.files :=
      files_modPcb (s := s) (q := c) (f := fun b => { b with pcbInUse := -1 }) rfl
    split at h
    · rename_i hu
      cases h
      rw [execute_files (.inl hu), hd]
    · rename_i hu
      rw [ih h, execute_files (.inr hu), hd]

/-- `halt` of a process with a parent clears its table. -/
theorem files_destruct (p : Int) : (s.modPcb p Pcb.destruct).files = s.files.clear p := by
  have ht : (s.modPcb p Pcb.destruct).fdEntry = (s.files.clear p).table := by
    funext q i
    by_cases hq : q = p
    · subst hq
      simp [Kernel.fdEntry, Kernel.modPcb, Files.clear, Kernel.files, Pcb.destruct]
    · simp [Kernel.fdEntry, Kernel.modPcb, Files.clear, Kernel.files, hq]
  simp only [Kernel.files, ht]
  rfl

theorem halt_files {st : UInt8} {xs : List ExecIn} {r : HaltResult} (h : s.halt st xs = some r) :
    (s.procs.parent s.procs.running = -1 ∧ r.state.files = s.files) ∨
    (s.procs.parent s.procs.running ≠ -1 ∧ r.state.files = s.files.clear s.curr) := by
  unfold Kernel.halt at h
  dsimp only at h
  split at h
  · rename_i hp
    obtain ⟨u, hr, rfl⟩ := Option.map_eq_some_iff.mp h
    exact .inl ⟨hp, restart_files hr⟩
  · rename_i hp
    cases h
    exact .inr ⟨hp, files_destruct (s := s) s.curr⟩

/-- A `halt` in a state `u` with the processes and files of `s`. -/
theorem filesStep_halt {e : Event} {xs : List ExecIn} {u : Kernel} {st : UInt8}
    (he : e.halts = some xs) (hl : e.LeavesFiles) (hh : s.HasProcess) (hp : u.procs = s.procs)
    (hf : u.files = s.files) (h : (u.halt st xs).map HaltResult.state = some s') :
    FilesStep s e s' := by
  obtain ⟨r, hr, rfl⟩ := Option.map_eq_some_iff.mp h
  have hcurr : u.curr = s.curr := congrArg Procs.running hp
  rcases halt_files hr with ⟨hroot, hr⟩ | ⟨hroot, hr⟩ <;> rw [hp] at hroot
  · exact .same hl (.inr hroot) (hr.trans hf)
  · rw [hf, hcurr] at hr
    exact .reap he hh hroot hr

theorem filesStep_exception {e : Event} {xs : List ExecIn} {u : Kernel} {v : Nat}
    (he : e.halts = some xs) (hl : e.LeavesFiles) (hp : u.procs = s.procs)
    (hf : u.files = s.files) (h : u.exception v xs = some s') : FilesStep s e s' := by
  unfold Kernel.exception at h
  split at h
  · rename_i hh
    have hcurr : u.curr = s.curr := congrArg Procs.running hp
    refine filesStep_halt he hl ?_ (u := u.print (exceptionText v)) hp hf h
    unfold Kernel.HasProcess at hh ⊢
    omega
  · cases h

/-! ### The scheduler -/

theorem files_deschedule (esp ebp : UInt32) : (s.deschedule esp ebp).files = s.files :=
  files_modPcb (s := s.modTerm s.curTerminal fun t => { t with saveTss := s.tss }) (q := s.curr)
    (f := fun b => { b with taskEsp := esp, taskEbp := ebp }) rfl

theorem files_switchTerminal (d : Int) : (s.switchTerminal d).files = s.files :=
  files_of_differs (Kernel.switchTerminal_differs d)

theorem files_prepareShell : s.prepareShell.files = s.files :=
  files_switchTerminal (s := s) s.pitCount

theorem files_reschedule {esp ebp : UInt32} (h : s.reschedule = .resume s' esp ebp) :
    s'.files = s.files := by
  simp only [Kernel.reschedule, PitResult.resume.injEq] at h
  obtain ⟨rfl, -⟩ := h
  rfl

theorem pitHandler_files {esp ebp : UInt32} {x : ExecIn} :
    (∀ esp' ebp', s.pitHandler esp ebp x = .resume s' esp' ebp' → s'.files = s.files) ∧
    (s.pitHandler esp ebp x = .user s' → s'.files = s.files) := by
  have hprep : (s.deschedule esp ebp).prepareShell.files = s.files := by
    rw [files_prepareShell, files_deschedule]
  rcases Kernel.pitHandler_cases (s := s) esp ebp x with
    ⟨u, -, he, hu⟩ | ⟨u, -, he, hu⟩ | ⟨-, hu⟩ | ⟨-, hu⟩ <;> rw [hu]
  · refine ⟨fun _ _ h => (by cases h), fun h => ?_⟩
    cases h
    rw [execute_files (.inl he), hprep]
  · refine ⟨fun _ _ h => ?_, fun h => by cases h⟩
    rw [files_reschedule h, execute_files (.inr he), hprep]
  · refine ⟨fun _ _ h => ?_, fun h => by cases h⟩
    rw [files_reschedule h, ← files_deschedule (s := s) esp ebp]
    exact files_switchTerminal (s := s.deschedule esp ebp) 0
  · refine ⟨fun _ _ h => ?_, fun h => by cases h⟩
    rw [files_reschedule h, files_deschedule]

/-! ### System calls -/

theorem files_terminalReadTo {mem : Nat → UInt8} {n : Int} {r : SysResult}
    (h : s.terminalReadTo mem n = some r) : r.state.files = s.files := by
  obtain ⟨⟨ret, bytes, u⟩, hr, rfl⟩ := Option.map_eq_some_iff.mp h
  obtain ⟨-, _, _, -, -, -, -, rfl⟩ := terminalRead_eq hr
  rfl

theorem filesStep_read {fd : Int} {buf : Nat} {stack mem : Nat → UInt8} {n : Int} {r : SysResult}
    (hh : s.HasProcess) (h : s.sysRead fd buf stack mem n = some r) :
    FilesStep s (.read fd buf stack mem n) r.state := by
  have hsame : r.state.files = s.files → FilesStep s (.read fd buf stack mem n) r.state :=
    .same trivial (.inl rfl)
  unfold Kernel.sysRead at h
  split at h
  · cases h
    exact hsame rfl
  · exact hsame (files_terminalReadTo h)
  · cases h
  · rename_i op ht
    cases op with
    | rtc =>
      cases h
      exact hsame rfl
    | dir =>
      cases h
      apply hsame
      simp only [Kernel.files, disk_dirRead]
      rfl
    | file =>
      cases h
      exact .fileRead hh ht rfl
    | terminal => exact hsame (files_terminalReadTo h)

theorem files_sysWrite {fd : Int} {buf : Nat} {mem : Nat → UInt8} {n : Int} {r : SysResult}
    (h : s.sysWrite fd buf mem n = some r) : r.state.files = s.files := by
  unfold Kernel.sysWrite at h
  split at h
  · cases h; rfl
  · cases h; rfl
  · cases h
  · rename_i op _
    cases op <;> (cases h; rfl)

theorem files_sysGetargs (after mem : Nat → UInt8) (n : Int) :
    (s.sysGetargs after mem n).state.files = s.files := by
  have h : ∀ a, (s.modPcb s.curr fun b => { b with args := a }).files = s.files := fun _ =>
    files_modPcb rfl
  unfold Kernel.sysGetargs
  dsimp only
  split <;> exact h _

theorem files_sysVidmap (a : Nat) : (s.sysVidmap a).state.files = s.files := by
  rcases Kernel.sysVidmap_cases (s := s) a with ⟨-, h⟩ | ⟨-, h | ⟨vram, umem, h⟩⟩ <;> rw [h] <;> rfl

/-- **What every event does to the open files.** -/
theorem filesStep {e : Event} (h : s.step e = some s') : FilesStep s e s' := by
  cases e with
  | tick esp ebp x =>
    simp only [Kernel.step] at h
    split at h
    · rename_i hr
      cases h
      exact .same trivial (.inl rfl) (pitHandler_files.1 _ _ hr)
    · cases h
  | tickLaunch esp ebp x =>
    simp only [Kernel.step] at h
    split at h
    · cases h
    · rename_i hr
      cases h
      exact .same trivial (.inl rfl) (pitHandler_files.2 hr)
  | key c st =>
    have hk := files_of_differs (Kernel.keyboardHandler_differs (s := s) c.toNat st)
    simp only [Kernel.step] at h
    split at h
    · rename_i hr
      cases h
      rw [hr] at hk
      exact .same trivial (.inl rfl) hk
    · cases h
  | keyFault c st xs =>
    have hk := files_of_differs (Kernel.keyboardHandler_differs (s := s) c.toNat st)
    have hp := (sameProcs_keyboardHandler (s := s) c.toNat st).procs
    simp only [Kernel.step] at h
    split at h
    · cases h
    · rename_i hr
      rw [hr] at hk hp
      exact filesStep_exception rfl trivial hp hk h
  | execUser fname x =>
    obtain ⟨-, h⟩ := syscall_eq h
    split at h
    · rename_i hr
      cases h
      exact .same trivial (.inl rfl) (execute_files (.inl hr))
    · cases h
  | execFail fname x =>
    obtain ⟨-, h⟩ := syscall_eq h
    split at h
    · cases h
    · rename_i hr
      cases h
      exact .same trivial (.inl rfl) (execute_files (.inr hr))
  | halt st xs =>
    obtain ⟨hh, h⟩ := syscall_eq h
    exact filesStep_halt rfl trivial hh rfl rfl h
  | exception v xs => exact filesStep_exception rfl trivial rfl rfl h
  | openFd f =>
    obtain ⟨hh, h⟩ := syscall_eq h
    exact .openFd hh (Option.some.inj h).symm
  | closeFd fd =>
    obtain ⟨hh, h⟩ := syscall_eq h
    exact .closeFd hh (Option.some.inj h).symm
  | read fd buf stack mem n =>
    obtain ⟨hh, h⟩ := syscall_eq h
    obtain ⟨r, hr, rfl⟩ := Option.map_eq_some_iff.mp h
    exact filesStep_read hh hr
  | write fd buf mem n =>
    obtain ⟨-, h⟩ := syscall_eq h
    obtain ⟨r, hr, rfl⟩ := Option.map_eq_some_iff.mp h
    exact .same trivial (.inl rfl) (files_sysWrite hr)
  | getargs after mem n =>
    obtain ⟨-, h⟩ := syscall_eq h
    cases h
    exact .same trivial (.inl rfl) (files_sysGetargs after mem n)
  | vidmap a =>
    have hv := files_sysVidmap (s := s) a
    obtain ⟨-, h⟩ := syscall_eq h
    split at h
    · rename_i hr
      cases h
      rw [hr] at hv
      exact .same trivial (.inl rfl) hv
    · cases h
  | vidmapFault a xs =>
    have hv := files_sysVidmap (s := s) a
    have hp := (sameProcs_sysVidmap (s := s) a).procs
    obtain ⟨-, h⟩ := syscall_eq h
    split at h
    · cases h
    · rename_i hr
      rw [hr] at hv hp
      exact filesStep_exception rfl trivial hp hv h

/-! ### Along a run -/

/-- No event writes to the disk. -/
theorem disk_step {e : Event} (h : s.step e = some s') : s'.fs.disk = s.fs.disk := by
  cases filesStep h with
  | same _ _ hf => exact congrArg Files.disk hf
  | openFd _ hs =>
    rw [hs, sysOpen_eq]
    split
    · rfl
    · split <;> exact disk_opened ..
  | closeFd _ hs =>
    rw [hs, sysClose_eq]
    split <;> rfl
  | fileRead _ _ hs =>
    rw [hs]
    unfold Kernel.fileRead
    dsimp only
    split <;> rfl
  | reap _ _ _ hf => exact congrArg Files.disk hf

/-- What a lookup finds is on the disk. -/
theorem readDentryByName_of_disk {fs fs' : FileSys} (h : fs'.disk = fs.disk) (f : Nat → UInt8) :
    readDentryByName fs' f = readDentryByName fs f := by
  have hd : readDentryByName fs'.disk f = readDentryByName fs.disk f := by rw [h]
  exact hd

theorem readDentryByName_some {fs : FileSys} {f : Nat → UInt8} {d : Dentry}
    (h : readDentryByName fs f = some d) : ∃ j < 64, d = fs.dentry j := by
  obtain ⟨j, hj, hd⟩ := List.exists_of_findSome?_eq_some h
  split at hd
  · exact ⟨j, List.mem_range.mp hj, (Option.some.inj hd).symm⟩
  · cases hd

theorem readTarget_call {fd : Int} {buf : Nat} {op : Option Fop}
    (h : s.readTarget fd buf = .call op) : 2 ≤ fd ∧ fd < 6 := by
  unfold Kernel.readTarget at h
  split_ifs at h
  omega

/-- **The rule for entries.** A property of single entries that an open, a close, a read and a
`halt` keep, each for the entries that it writes, is kept by every step. -/
theorem entries_step {Q : Int → Int → FdEntry → Prop} {e : Event}
    (hopen : ∀ p i r j, 2 ≤ i → i < 8 → r.present = -1 → j < 64 → Q p i r →
      Q p i (r.opened (s.fs.dentry j)))
    (hclose : ∀ p i r, 2 < i → i < 6 → Q p i r → Q p i { r with present := -1 })
    (hread : ∀ p i r n, 2 ≤ i → i < 6 → Q p i r → Q p i { r with filePos := n })
    (hclear : ∀ p i, 2 ≤ i → i < 8 → Q p i ⟨-1, 0, -1, none, -1⟩)
    (h : s.step e = some s') (hQ : ∀ p i, Q p i (s.fdEntry p i)) :
    ∀ p i, Q p i (s'.fdEntry p i) := by
  have hset : ∀ {u : Kernel} {fd : Int} {r : FdEntry},
      (∀ p i, u.fdEntry p i = if p = s.curr ∧ i = fd then r else s.fdEntry p i) →
      Q s.curr fd r → ∀ p i, Q p i (u.fdEntry p i) := by
    intro u fd r hu hr p i
    rw [hu]
    split
    · rename_i he
      rw [he.1, he.2]
      exact hr
    · exact hQ p i
  have hsame : ∀ {u : Kernel}, u.files = s.files → ∀ p i, Q p i (u.fdEntry p i) := by
    intro u hu
    have ht : u.fdEntry = s.fdEntry := congrArg Files.table hu
    rw [ht]
    exact hQ
  cases filesStep h with
  | same _ _ hf => exact hsame hf
  | @openFd f _ _ hs =>
    rw [sysOpen_eq] at hs
    split at hs
    · subst hs
      exact hQ
    · split at hs
      · rename_i d fd hd hf
        have hl := freeFd_some hf
        obtain ⟨j, hj, rfl⟩ := readDentryByName_some hd
        subst hs
        exact hset (fdEntry_openedAs f (s.fs.dentry j) fd)
          (hopen _ _ _ j hl.ge hl.lt hl.free hj (hQ _ _))
      · subst hs
        exact hQ
  | closeFd _ hs =>
    rw [sysClose_eq] at hs
    split at hs
    · rename_i hc
      subst hs
      exact hset (fdEntry_closed _) (hclose _ _ _ hc.1 hc.2.1 (hQ _ _))
    · subst hs
      exact hQ
  | @fileRead fd _ _ mem n _ _ ht hs =>
    obtain ⟨h2, h6⟩ := readTarget_call ht
    subst hs
    unfold Kernel.fileRead
    dsimp only
    split
    · exact hset (fun p i => fdEntry_setFd s.curr fd p i _) (hread _ _ _ _ h2 h6 (hQ _ _))
    · exact hQ
  | reap _ _ _ hf =>
    intro p i
    have hui : s'.fdEntry p i = (s.files.clear s.curr).table p i :=
      congrFun (congrFun (congrArg Files.table hf) p) i
    rw [hui, Files.clear_table]
    split
    · rename_i he
      exact hclear p i he.2.1 he.2.2
    · exact hQ p i

end Step

end Mp3
