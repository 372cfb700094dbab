import Mp3Os.DirRead
import Mp3Os.Files
import Mp3Os.Sequential

/-!
# The cursor that all directory reads share

`curfile` is a global: whoever reads the directory reads on where the last reader stopped. Only a
directory read moves it (`curfile_step`). So along every run from boot the directory reads of all
processes together go round the entries, one after the other, and the one that comes to the last
entry is told that the directory ends (`dirReads_cyclic`).
-/

namespace Mp3

/-- The event is a directory read. -/
def Kernel.readsDir (s : Kernel) : Event → Bool
  | .read fd buf _ _ _ => s.readTarget fd buf = .call (some .dir)
  | _ => false

/-- Where the cursor goes. -/
def FileSys.nextFile (fs : FileSys) : Nat :=
  if u32 (fs.curfile + 1) = fs.numdentries then 0 else u32 (fs.curfile + 1)

/-! ## Who moves the cursor -/

section Step

variable {s s' : Kernel} {e : Event}

@[simp] theorem curfile_opened (fs : FileSys) (f : Nat → UInt8) :
    (fs.opened f).curfile = fs.curfile := by
  obtain ⟨d, hd⟩ := opened_eq fs f
  rw [hd]

theorem curfile_dirRead (fs : FileSys) (stack buf : Nat → UInt8) (n : Int) :
    (dirRead fs stack buf n).2.2.curfile = fs.nextFile := by
  unfold dirRead FileSys.nextFile
  dsimp only
  split <;> rfl

theorem curfile_started (fname : Nat → UInt8) (pid : Int) (x : ExecIn) (buf : Nat → UInt8) :
    (s.started fname pid x buf).fs.curfile = s.fs.curfile :=
  (curfile_opened (s.looked fname).fs _).trans (curfile_opened s.fs fname)

theorem execute_curfile {fname : Nat → UInt8} {x : ExecIn}
    (h : s.execute fname x = .user s' ∨ s.execute fname x = .fail s') :
    s'.fs.curfile = s.fs.curfile := by
  rw [execute_eq] at h
  cases hb : s.fs.header fname x.buf with
  | none =>
    rw [hb] at h
    rcases h with h | h <;> cases h
    exact curfile_opened ..
  | some buf =>
    cases hp : s.freePid with
    | none =>
      rw [hb, hp] at h
      rcases h with h | h <;> cases h
      exact curfile_opened ..
    | some pid =>
      rw [hb, hp] at h
      simp only at h
      split at h <;> rcases h with h | h <;> cases h
      · exact curfile_started ..
      · exact curfile_opened s.fs fname

theorem restart_curfile {c : Int} {xs : List ExecIn} (h : Kernel.restart c s xs = some s') :
    s'.fs.curfile = s.fs.curfile := by
  induction xs generalizing s with
  | nil => cases h
  | cons x xs ih =>
    simp only [Kernel.restart] at h
    split at h
    · rename_i hu
      cases h
      exact (execute_curfile (.inl hu)).trans rfl
    · rename_i hu
      exact (ih h).trans ((execute_curfile (.inr hu)).trans rfl)

theorem halt_curfile {st : UInt8} {xs : List ExecIn} {r : HaltResult} (h : s.halt st xs = some r) :
    r.state.fs.curfile = s.fs.curfile := by
  unfold Kernel.halt at h
  dsimp only at h
  split at h
  · obtain ⟨u, hr, rfl⟩ := Option.map_eq_some_iff.mp h
    exact restart_curfile hr
  · cases h
    rfl

theorem exception_curfile {v : Nat} {xs : List ExecIn} (h : s.exception v xs = some s') :
    s'.fs.curfile = s.fs.curfile := by
  unfold Kernel.exception at h
  split at h
  · obtain ⟨r, hr, rfl⟩ := Option.map_eq_some_iff.mp h
    exact halt_curfile (s := s.print (exceptionText v)) hr
  · cases h

theorem curfile_of_differs (h : s.DiffersInTerminals s') : s'.fs.curfile = s.fs.curfile := by
  obtain ⟨_, _, _, _, _, _, rfl⟩ := h
  rfl

theorem curfile_switchTerminal (d : Int) : (s.switchTerminal d).fs.curfile = s.fs.curfile :=
  curfile_of_differs (Kernel.switchTerminal_differs d)

theorem curfile_prepareShell : s.prepareShell.fs.curfile = s.fs.curfile :=
  curfile_switchTerminal (s := s) s.pitCount

theorem curfile_reschedule {esp ebp : UInt32} (h : s.reschedule = .resume s' esp ebp) :
    s'.fs.curfile = s.fs.curfile := by
  simp only [Kernel.reschedule, PitResult.resume.injEq] at h
  obtain ⟨rfl, -⟩ := h
  rfl

theorem pitHandler_curfile {esp ebp : UInt32} {x : ExecIn} :
    (∀ esp' ebp', s.pitHandler esp ebp x = .resume s' esp' ebp' →
      s'.fs.curfile = s.fs.curfile) ∧
    (s.pitHandler esp ebp x = .user s' → s'.fs.curfile = s.fs.curfile) := by
  have hprep : (s.deschedule esp ebp).prepareShell.fs.curfile = s.fs.curfile := curfile_prepareShell
  rcases Kernel.pitHandler_cases (s := s) esp ebp x with
    ⟨u, -, he, hu⟩ | ⟨u, -, he, hu⟩ | ⟨-, hu⟩ | ⟨-, hu⟩ <;> rw [hu]
  · refine ⟨fun _ _ h => (by cases h), fun h => ?_⟩
    cases h
    rw [execute_curfile (.inl he), hprep]
  · refine ⟨fun _ _ h => ?_, fun h => by cases h⟩
    rw [curfile_reschedule h, execute_curfile (.inr he), hprep]
  · refine ⟨fun _ _ h => ?_, fun h => by cases h⟩
    rw [curfile_reschedule h]
    exact curfile_switchTerminal (s := s.deschedule esp ebp) 0
  · refine ⟨fun _ _ h => ?_, fun h => by cases h⟩
    exact curfile_reschedule (s := s.deschedule esp ebp) h

theorem curfile_terminalReadTo {mem : Nat → UInt8} {n : Int} {r : SysResult}
    (h : s.terminalReadTo mem n = some r) : r.state.fs.curfile = s.fs.curfile := by
  obtain ⟨⟨ret, bytes, u⟩, hr, rfl⟩ := Option.map_eq_some_iff.mp h
  obtain ⟨-, _, _, -, -, -, -, rfl⟩ := terminalRead_eq hr
  rfl

theorem curfile_fileRead (fd : Int) (mem : Nat → UInt8) (n : Int) :
    (s.fileRead fd mem n).2.2.fs.curfile = s.fs.curfile := by
  unfold Kernel.fileRead
  dsimp only
  split <;> rfl

theorem curfile_read {fd : Int} {buf : Nat} {stack mem : Nat → UInt8} {n : Int} {r : SysResult}
    (h : s.sysRead fd buf stack mem n = some r) : r.state.fs.curfile =
      if s.readsDir (.read fd buf stack mem n) then s.fs.nextFile else s.fs.curfile := by
  unfold Kernel.sysRead at h
  split at h
  · rename_i ht
    cases h
    rw [if_neg (by simp [Kernel.readsDir, ht])]
  · rename_i ht
    rw [if_neg (by simp [Kernel.readsDir, ht])]
    exact curfile_terminalReadTo h
  · cases h
  · rename_i op ht
    cases op with
    | rtc =>
      cases h
      rw [if_neg (by simp [Kernel.readsDir, ht])]
    | dir =>
      cases h
      rw [if_pos (by simp [Kernel.readsDir, ht])]
      exact curfile_dirRead ..
    | file =>
      cases h
      rw [if_neg (by simp [Kernel.readsDir, ht])]
      exact curfile_fileRead ..
    | terminal =>
      rw [if_neg (by simp [Kernel.readsDir, ht])]
      exact curfile_terminalReadTo h

theorem curfile_sysOpen (f : Nat → UInt8) : (s.sysOpen f).2.fs.curfile = s.fs.curfile := by
  rw [sysOpen_eq]
  split
  · rfl
  · split <;> exact curfile_opened ..

theorem curfile_sysClose (fd : Int) : (s.sysClose fd).2.fs.curfile = s.fs.curfile := by
  rw [sysClose_eq]
  split <;> rfl

theorem curfile_sysWrite {fd : Int} {buf : Nat} {mem : Nat → UInt8} {n : Int} {r : SysResult}
    (h : s.sysWrite fd buf mem n = some r) : r.state.fs.curfile = s.fs.curfile := by
  unfold Kernel.sysWrite at h
  split at h
  · cases h; rfl
  · cases h; rfl
  · cases h
  · rename_i op _
    cases op <;> (cases h; rfl)

theorem curfile_sysVidmap (a : Nat) : (s.sysVidmap a).state.fs.curfile = s.fs.curfile := by
  rcases Kernel.sysVidmap_cases (s := s) a with ⟨-, h⟩ | ⟨-, h | ⟨vram, umem, h⟩⟩ <;> rw [h] <;> rfl

/-- **Only a directory read moves the cursor.** -/
theorem curfile_step (h : s.step e = some s') :
    s'.fs.curfile = if s.readsDir e then s.fs.nextFile else s.fs.curfile := by
  cases e with
  | read fd buf stack mem n =>
    obtain ⟨-, h⟩ := syscall_eq h
    obtain ⟨r, hr, rfl⟩ := Option.map_eq_some_iff.mp h
    exact curfile_read hr
  | tick esp ebp x =>
    simp only [Kernel.step] at h
    split at h
    · rename_i hr
      cases h
      exact pitHandler_curfile.1 _ _ hr
    · cases h
  | tickLaunch esp ebp x =>
    simp only [Kernel.step] at h
    split at h
    · cases h
    · rename_i hr
      cases h
      exact pitHandler_curfile.2 hr
  | key c st =>
    have hk := curfile_of_differs (Kernel.keyboardHandler_differs (s := s) c.toNat st)
    simp only [Kernel.step] at h
    split at h
    · rename_i hr
      cases h
      rw [hr] at hk
      exact hk
    · cases h
  | keyFault c st xs =>
    have hk := curfile_of_differs (Kernel.keyboardHandler_differs (s := s) c.toNat st)
    simp only [Kernel.step] at h
    split at h
    · cases h
    · rename_i hr
      rw [hr] at hk
      exact (exception_curfile h).trans hk
  | execUser fname x =>
    obtain ⟨-, h⟩ := syscall_eq h
    split at h
    · rename_i hr
      cases h
      exact execute_curfile (.inl hr)
    · cases h
  | execFail fname x =>
    obtain ⟨-, h⟩ := syscall_eq h
    split at h
    · cases h
    · rename_i hr
      cases h
      exact execute_curfile (.inr hr)
  | halt st xs =>
    obtain ⟨-, h⟩ := syscall_eq h
    obtain ⟨r, hr, rfl⟩ := Option.map_eq_some_iff.mp h
    exact halt_curfile hr
  | exception v xs => exact exception_curfile h
  | openFd f =>
    obtain ⟨-, h⟩ := syscall_eq h
    cases h
    exact curfile_sysOpen f
  | closeFd fd =>
    obtain ⟨-, h⟩ := syscall_eq h
    cases h
    exact curfile_sysClose fd
  | write fd buf mem n =>
    obtain ⟨-, h⟩ := syscall_eq h
    obtain ⟨r, hr, rfl⟩ := Option.map_eq_some_iff.mp h
    exact curfile_sysWrite hr
  | getargs after mem n =>
    obtain ⟨-, h⟩ := syscall_eq h
    cases h
    show (s.sysGetargs after mem n).state.fs.curfile = s.fs.curfile
    unfold Kernel.sysGetargs
    dsimp only
    split <;> rfl
  | vidmap a =>
    have hv := curfile_sysVidmap (s := s) a
    obtain ⟨-, h⟩ := syscall_eq h
    split at h
    · rename_i hr
      cases h
      rw [hr] at hv
      exact hv
    · cases h
  | vidmapFault a xs =>
    have hv := curfile_sysVidmap (s := s) a
    obtain ⟨-, h⟩ := syscall_eq h
    split at h
    · cases h
    · rename_i hr
      rw [hr] at hv
      exact (exception_curfile h).trans hv

end Step

/-! ## What the readers are told -/

/-- What a directory read at entry `i` tells its caller: the count and as many bytes. -/
def FileSys.dirAnswer (fs : FileSys) (i : Nat) : Int × List UInt8 :=
  if i + 1 = fs.numdentries then (0, []) else ((fs.entryName i).length, fs.entryName i)

/-- What an event tells its caller, if it is a directory read. -/
def Kernel.dirTold (s : Kernel) (e : Event) : Option (Int × List UInt8) :=
  if s.readsDir e then
    match e with
    | .read fd buf stack mem n => (s.sysRead fd buf stack mem n).map fun r => (r.ret, delivered (r.ret, r.buf))
    | _ => none
  else none

/-- The directory reads: who made them, and what they were told. -/
abbrev DirLog := List (Int × Int × List UInt8)

def DirLog.note (log : DirLog) (s : Kernel) (e : Event) (_ : Kernel) : DirLog :=
  log ++ ((s.dirTold e).map fun a => (s.curr, a)).toList

/-- The kernel with its directory reads. -/
def dirTraced : Lts (Kernel × DirLog) Event := kernel.withGhost DirLog.note

/-- A directory read has room for a name. -/
def DirRoomy (p : Kernel × DirLog) : Event → Prop
  | .read fd buf stack mem n => p.1.readsDir (.read fd buf stack mem n) → 32 ≤ n ∧ n < 2147483648
  | _ => True

instance (p : Kernel × DirLog) (e : Event) : Decidable (DirRoomy p e) := by
  cases e <;> (unfold DirRoomy; infer_instance)

section Answers

variable {fs fs' : FileSys} {stack buf : Nat → UInt8} {n : Int} {i : Nat}

theorem entryName_of_disk (hd : fs'.disk = fs.disk) : fs'.entryName = fs.entryName := by
  funext i
  have h := congrArg (fun g : FileSys => g.entryName i) hd
  exact h

theorem dirAnswer_of_disk (hd : fs'.disk = fs.disk) : fs'.dirAnswer = fs.dirAnswer := by
  have hn : fs'.disk.numdentries = fs.disk.numdentries := by rw [hd]
  have hn : fs'.numdentries = fs.numdentries := hn
  funext i
  simp only [FileSys.dirAnswer, hn, entryName_of_disk hd]

/-- The cursor goes round. -/
theorem nextFile_eq (hn : fs.numdentries < 4294967296)
    (hc : fs.curfile < fs.numdentries) :
    fs.nextFile = (fs.curfile + 1) % fs.numdentries := by
  have hu : u32 ((fs.curfile : Int) + 1) = fs.curfile + 1 := u32_add (b := 1) (by omega)
  unfold FileSys.nextFile
  rw [hu]
  split
  · rename_i h
    rw [h, Nat.mod_self]
  · rw [Nat.mod_eq_of_lt (by omega)]

/-- **A directory read with room for a name** tells what stands at the cursor. -/
theorem dirRead_answer (stack buf : Nat → UInt8) (hn : 32 ≤ n ∧ n < 2147483648) (hc : fs.curfile < fs.numdentries)
    (h64 : fs.numdentries ≤ 64) :
    ((dirRead fs stack buf n).1, delivered ((dirRead fs stack buf n).1, (dirRead fs stack buf n).2.1)) =
      fs.dirAnswer fs.curfile := by
  obtain ⟨m, rfl⟩ : ∃ m : Nat, n = m := ⟨n.toNat, by omega⟩
  have hu : u32 ((fs.curfile : Int) + 1) = fs.curfile + 1 := u32_add (b := 1) (by omega)
  have hcall := @dirCall_last fs ⟨stack, buf, m⟩
  have hnext := @dirCall_next fs ⟨stack, buf, m⟩
  rw [hu] at hcall hnext
  unfold FileSys.dirAnswer
  by_cases hlast : fs.curfile + 1 = fs.numdentries
  · have h0 : (dirRead fs stack buf m).1 = 0 := (hcall hlast).1
    rw [if_pos hlast, h0]
    rfl
  · have hret : (dirRead fs stack buf m).1 = (fs.entryName fs.curfile).length := by
      have h := (hnext hlast).1
      rw [readDentryByIndex, if_neg (by omega)] at h
      exact h
    have hlen := length_entryName_le fs fs.curfile
    rw [if_neg hlast, hret]
    refine Prod.ext rfl (List.ext_getElem (by simp [delivered]) fun i hi hi' => ?_)
    have hlt : i < (fs.entryName fs.curfile).length := hi'
    have hbyte : ∀ j ≤ i, (fs.dentry fs.curfile).bytes stack j = (fs.entryName fs.curfile).getD j 0 := by
      intro j hj
      have hj32 : (fs.dentry fs.curfile).bytes stack j = (fs.dentry fs.curfile).name.getD j :=
        if_pos (by omega)
      rw [hj32, entryName_getD (by omega)]
    simp only [delivered, List.getElem_map, List.getElem_range]
    rw [dirRead_buf (by omega), if_pos (by omega), strncpy_of_ne (by omega), hbyte i (Nat.le_refl i),
      List.getD_eq_getElem _ _ hi']
    intro j hj
    rw [hbyte j hj]
    exact entryName_ne (by omega)

end Answers

section Cyclic

variable {b : BootIn} {s s' : Kernel} {log : DirLog} {e : Event} {es : List Event}

theorem dirTold_none (h : s.readsDir e = false) : s.dirTold e = none := by
  simp [Kernel.dirTold, h]

/-- A directory read by an event of the kernel. -/
theorem dirTold_some (hd : s.readsDir e = true) (hg : DirRoomy (s, log) e)
    (hc : s.fs.curfile < s.fs.numdentries) (h64 : s.fs.numdentries ≤ 64) :
    s.dirTold e = some (s.fs.dirAnswer s.fs.curfile) := by
  cases e with
  | read fd buf stack mem n =>
    have ht : s.readTarget fd buf = .call (some .dir) := by simpa [Kernel.readsDir] using hd
    have hread : s.sysRead fd buf stack mem n = some ⟨(dirRead s.fs stack mem n).1,
        (dirRead s.fs stack mem n).2.1, { s with fs := (dirRead s.fs stack mem n).2.2 }⟩ := by
      rw [Kernel.sysRead, ht]
      rfl
    simp only [Kernel.dirTold, hd, hread, ↓reduceIte, Option.map_some]
    rw [dirRead_answer stack mem (hg hd) hc h64]
  | _ => cases hd

/-- The invariant: the cursor counts the reads. -/
structure DirCyclic (b : BootIn) (p : Kernel × DirLog) : Prop where
  disk : p.1.fs.disk = (boot b).fs.disk
  cursor : p.1.fs.curfile = (p.2.length + 1) % (boot b).fs.numdentries
  told : p.2.map Prod.snd = (List.range p.2.length).map fun j =>
    (boot b).fs.dirAnswer ((j + 1) % (boot b).fs.numdentries)

theorem dirCyclic_step {p p' : Kernel × DirLog} (h2 : 2 ≤ (boot b).fs.numdentries)
    (h64 : (boot b).fs.numdentries ≤ 64) (hi : DirCyclic b p) (hg : DirRoomy p e)
    (h : dirTraced.step p e = some p') : DirCyclic b p' := by
  obtain ⟨s, log⟩ := p
  obtain ⟨s', log'⟩ := p'
  obtain ⟨hs, rfl⟩ := Lts.withGhost_step.mp h
  obtain ⟨hd, hcur, htold⟩ := hi
  have hs : s.step e = some s' := hs
  have hd' := (disk_step hs).trans hd
  have hn : s.fs.numdentries = (boot b).fs.numdentries := by
    have hn : s.fs.disk.numdentries = (boot b).fs.disk.numdentries := congrArg FileSys.numdentries hd
    exact hn
  have hlt : s.fs.curfile < s.fs.numdentries := by
    have hmod := Nat.mod_lt (log.length + 1) (show 0 < (boot b).fs.numdentries by omega)
    dsimp only at hcur
    omega
  by_cases hr : s.readsDir e = true
  · have ht := dirTold_some hr hg hlt (by omega)
    refine ⟨hd', ?_, ?_⟩
    · dsimp only at hcur ⊢
      rw [curfile_step hs, if_pos hr, nextFile_eq (by omega) hlt, hn, hcur, Nat.mod_add_mod]
      simp [DirLog.note, ht]
    · dsimp only at hcur htold ⊢
      rw [DirLog.note, ht, Option.map_some, Option.toList_some, List.map_append, htold,
        List.length_append, List.length_singleton, List.range_succ, List.map_append, List.map_singleton,
        List.map_singleton, ← hcur, dirAnswer_of_disk hd]
  · have hr : s.readsDir e = false := Bool.not_eq_true _ ▸ hr
    have hlog : DirLog.note log s e s' = log := by
      simp [DirLog.note, dirTold_none hr]
    refine ⟨hd', ?_, ?_⟩
    · dsimp only at hcur ⊢
      rw [curfile_step hs, hr, if_neg Bool.false_ne_true, hlog]
      exact hcur
    · dsimp only at htold ⊢
      rw [hlog]
      exact htold

/-- **All directory reads together go round the entries.** Along every run from boot, whoever makes
them, directory read number `j` is told entry `(j + 1) % n` of the `n` entries: its name, or the
end of the directory for the last one. -/
theorem dirReads_cyclic (h2 : 2 ≤ (boot b).fs.numdentries) (h64 : (boot b).fs.numdentries ≤ 64)
    (hg : dirTraced.Along DirRoomy (boot b, []) es)
    (hr : dirTraced.run (boot b, []) es = some (s, log)) :
    log.map Prod.snd = (List.range log.length).map fun j =>
      (boot b).fs.dirAnswer ((j + 1) % (boot b).fs.numdentries) := by
  refine (Lts.run_inv (M := dirTraced) (I := DirCyclic b) (s := (boot b, []))
    (fun p e p' hi hg h => dirCyclic_step h2 h64 hi hg h) ⟨rfl, ?_, rfl⟩ hg hr).told
  exact (Nat.mod_eq_of_lt h2).symm

/-- The shells of the terminals 2 and 0 open the directory of the small machine and read it in
turns. -/
def sharedReads : List Event :=
  let dot : Event := .openFd dotName
  let read : Event := .read 2 0x8000000 (fun _ => 0) (fun _ => 0) 32
  sampleLaunches ++ [dot, read, .tick 0 0 sampleExec, dot, read, read, read]

theorem dirReads_cyclic_sample : ∃ s log, dirTraced.run (boot sampleBoot, []) sharedReads = some (s, log) ∧
    log.map Prod.fst = [2, 0, 0, 0] ∧
    log.map Prod.snd = (List.range log.length).map fun j =>
      (boot sampleBoot).fs.dirAnswer ((j + 1) % (boot sampleBoot).fs.numdentries) := by
  have hv : (dirTraced.run (boot sampleBoot, []) sharedReads).map (fun p =>
      (p.2.map Prod.fst, decide (dirTraced.Along DirRoomy (boot sampleBoot, []) sharedReads))) =
      some ([2, 0, 0, 0], true) := by decide +kernel
  obtain ⟨⟨s, log⟩, hr, hv⟩ := Option.map_eq_some_iff.mp hv
  obtain ⟨hwho, hg⟩ := Prod.mk.inj hv
  exact ⟨s, log, hr, hwho, dirReads_cyclic (by decide +kernel) (by decide +kernel)
    (of_decide_eq_true hg) hr⟩

end Cyclic

end Mp3
