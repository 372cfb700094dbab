import Mp3Os.Descriptors
import Mp3Os.Globals

/-!
# Descriptor tables of all processes

What holds of the descriptor tables along every run from boot.

* `allocation`: a `sys_open` takes the lowest free descriptor of its caller and fills it from the
  directory entry (`Allocates`), and every descriptor in use has the operation table of its file
  type (`OpsMatch`). The image has the three file types of the directory only.
* `startsClean_of_run`: a process starts with free descriptors (`StartsClean`). `execute` does not
  clear the table and relies on `halt`, which clears it for a process with a parent only.
-/

namespace Mp3

/-- The file type that an operation table is for. -/
def Fop.fileType : Fop → Int
  | .rtc => 0
  | .dir => 1
  | .file => 2
  | .terminal => 3

/-- The entry has the operation table of its own file type. -/
def FdEntry.OpsMatch (r : FdEntry) : Prop :=
  ∃ op, r.jumpStartIdx = some op ∧ r.fileType = op.fileType

/-- Every descriptor in use has the operation table of its own file type. -/
def OpsMatch (s : Kernel) : Prop :=
  ∀ p i, 0 ≤ p → p < 6 → 2 ≤ i → i < 8 → (s.fdEntry p i).present ≠ -1 → (s.fdEntry p i).OpsMatch

/-- The entry holds what the directory says of the file. -/
structure FdEntry.Holds (r : FdEntry) (d : Dentry) : Prop where
  present : r.present = 0
  inode : r.inodeNumber = i32 d.inodeNum
  fileType : r.fileType = d.fileType
  ops : r.OpsMatch

/-- What a call of `sys_open` is to return and to store. -/
structure Kernel.Allocates (s : Kernel) (f : Nat → UInt8) : Prop where
  lowest : (s.sysOpen f).1 ≠ -1 → s.files.LowestFree s.curr (s.sysOpen f).1
  stored : (s.sysOpen f).1 ≠ -1 → ∃ d, readDentryByName s.fs f = some d ∧
    ((s.sysOpen f).2.fdEntry s.curr (s.sysOpen f).1).Holds d
  others : ∀ p i, ¬ (p = s.curr ∧ i = (s.sysOpen f).1) →
    (s.sysOpen f).2.fdEntry p i = s.fdEntry p i
  fails : readDentryByName s.fs f = none ∨ s.files.Full s.curr → (s.sysOpen f).1 = -1
  succeeds : f 0 ≠ 0 → (readDentryByName s.fs f).isSome → ¬ s.files.Full s.curr →
    (s.sysOpen f).1 ≠ -1
  unchanged : (s.sysOpen f).1 = -1 → (s.sysOpen f).2.fdEntry = s.fdEntry

/-- The event, if it is a `sys_open`, returns and stores what it should. -/
def Allocates (s : Kernel) : Event → Prop
  | .openFd f => s.HasProcess → s.Allocates f
  | _ => True

/-- The directory has the three file types only. -/
def TypesOk (fs : FileSys) : Prop := ∀ j < 64, (fs.dentry j).fileType ≤ 2

instance (fs : FileSys) : Decidable (TypesOk fs) := inferInstanceAs (Decidable (∀ _ < _, _))

/-! ## Allocation -/

section Allocation

variable {s s' : Kernel} {e : Event} {f : Nat → UInt8}

theorem i32_of_le {n : Nat} (h : n ≤ 2) : i32 n = n := by
  unfold i32
  rw [if_pos (by omega), Nat.mod_eq_of_lt (by omega)]

/-- `insert_fdt` stores the table of the type. -/
theorem opened_opsMatch {d : Dentry} (h : d.fileType ≤ 2) (r : FdEntry) : (r.opened d).OpsMatch := by
  unfold FdEntry.OpsMatch FdEntry.opened
  dsimp only
  rw [i32_of_le h]
  rcases (by omega : d.fileType = 0 ∨ d.fileType = 1 ∨ d.fileType = 2) with h | h | h <;> rw [h]
  · exact ⟨.rtc, rfl, rfl⟩
  · exact ⟨.dir, rfl, rfl⟩
  · exact ⟨.file, rfl, rfl⟩

theorem opened_holds {d : Dentry} (h : d.fileType ≤ 2) (r : FdEntry) : (r.opened d).Holds d :=
  ⟨rfl, rfl, i32_of_le h, opened_opsMatch h r⟩

theorem allocates_of_fails (hret : s.sysOpen f = (-1, s) ∨ s.sysOpen f = (-1, s.notOpened f))
    (hf : f 0 = 0 ∨ readDentryByName s.fs f = none ∨ s.files.Full s.curr) : s.Allocates f := by
  have h1 : (s.sysOpen f).1 = -1 := by rcases hret with h | h <;> rw [h]
  have h2 : (s.sysOpen f).2.fdEntry = s.fdEntry := by rcases hret with h | h <;> rw [h]; rfl
  refine ⟨fun h => absurd h1 h, fun h => absurd h1 h, fun p i _ => by rw [h2], fun _ => h1,
    fun h0 hd hfull => ?_, fun _ => h2⟩
  rcases hf with h | h | h
  · exact absurd h h0
  · rw [h] at hd
    cases hd
  · exact absurd h hfull

/-- **Where the directory has the three types only, `sys_open` allocates as it should.** -/
theorem sysOpen_allocates (ht : TypesOk s.fs) (f : Nat → UInt8) : s.Allocates f := by
  have heq := sysOpen_eq s f
  by_cases h0 : f 0 = 0
  · rw [if_pos h0] at heq
    exact allocates_of_fails (.inl heq) (.inl h0)
  rw [if_neg h0] at heq
  cases hd : readDentryByName s.fs f with
  | none =>
    rw [hd] at heq
    exact allocates_of_fails (.inr heq) (.inr (.inl hd))
  | some d =>
    cases hf : s.freeFd with
    | none =>
      rw [hd, hf] at heq
      exact allocates_of_fails (.inr heq) (.inr (.inr (freeFd_none hf)))
    | some fd =>
      rw [hd, hf] at heq
      have hl := freeFd_some hf
      have hge := hl.ge
      have h1 : (s.sysOpen f).1 = fd := by rw [heq]
      have h2 : (s.sysOpen f).2 = s.openedAs f d fd := by rw [heq]
      obtain ⟨j, hj, hdj⟩ := readDentryByName_some hd
      have htype : d.fileType ≤ 2 := hdj ▸ ht j hj
      rw [← h1] at hl
      refine ⟨fun _ => hl, fun _ => ⟨d, hd, ?_⟩, fun p i hne => ?_, fun hfail => ?_,
        fun _ _ _ => by omega, fun hneg => by omega⟩
      · rw [h1, h2, fdEntry_openedAs, if_pos ⟨rfl, rfl⟩]
        exact opened_holds htype _
      · rw [h1] at hne
        rw [h2, fdEntry_openedAs, if_neg hne]
      · rcases hfail with h | h
        · rw [hd] at h
          cases h
        · exact absurd hl.free (h _ hl.ge hl.lt)

/-- The invariant of allocation. -/
structure TablesOk (s : Kernel) : Prop where
  types : TypesOk s.fs
  ops : OpsMatch s

theorem TypesOk.of_disk {fs fs' : FileSys} (h : fs'.disk = fs.disk) (ht : TypesOk fs) :
    TypesOk fs' := by
  intro j hj
  have hd : fs'.disk.dentry j = fs.disk.dentry j := by rw [h]
  have hd : fs'.dentry j = fs.dentry j := hd
  rw [hd]
  exact ht j hj

/-- **One step keeps the tables in order.** -/
theorem tablesOk_step (hi : TablesOk s) (h : s.step e = some s') : TablesOk s' := by
  refine ⟨hi.types.of_disk (disk_step h), ?_⟩
  refine entries_step (Q := fun p i r => 0 ≤ p → p < 6 → 2 ≤ i → i < 8 → r.present ≠ -1 → r.OpsMatch)
    ?_ ?_ ?_ ?_ h hi.ops
  · intro p i r j _ _ _ hj _ _ _ _ _ _
    exact opened_opsMatch (hi.types j hj) r
  · intro p i r _ _ _ _ _ _ _ hne
    exact absurd rfl hne
  · intro p i r n _ _ hr
    exact hr
  · intro p i _ _ _ _ _ _ hne
    exact absurd rfl hne

theorem tablesOk_boot {b : BootIn} (hb : TypesOk (boot b).fs) : TablesOk (boot b) := by
  refine ⟨hb, fun p i h0 h6 h2 h8 hne => ?_⟩
  have hp : ((boot b).fdEntry p i).present = -1 := by
    show ((if 0 ≤ p ∧ p < 6 then _ else _ : Pcb).fdTable i).present = -1
    rw [if_pos ⟨h0, h6⟩]
    dsimp only
    rw [if_neg (by omega), if_pos ⟨h2, h8⟩]
  exact absurd hp hne

/-- **Descriptor allocation.** Along every run from boot, each `sys_open` returns and stores what
it should, and in every state each descriptor in use has the table of its own file type. -/
theorem allocation {b : BootIn} (hb : TypesOk (boot b).fs) (es : List Event) :
    kernel.Along Allocates (boot b) es ∧ kernel.Always OpsMatch (boot b) es := by
  constructor
  · refine Lts.along_of_inv (I := TablesOk) (fun _ _ _ hu _ hs => tablesOk_step hu hs)
      (fun u e hu _ => ?_) (tablesOk_boot hb) Lts.along_true
    cases e <;> first | trivial | exact fun _ => sysOpen_allocates hu.types _
  · exact Lts.always_of_inv (I := TablesOk) (fun _ _ _ hu _ hs => tablesOk_step hu hs)
      (fun _ hu => hu.ops) (tablesOk_boot hb) Lts.along_true

theorem allocation_sample : TypesOk (boot sampleBoot).fs ∧
    kernel.Along Allocates (boot sampleBoot) twoOpens ∧
    kernel.Always OpsMatch (boot sampleBoot) twoOpens := by
  have hb : TypesOk (boot sampleBoot).fs := by decide +kernel
  exact ⟨hb, allocation hb twoOpens⟩

end Allocation

/-! ## A new process -/

/-- The descriptors of `p` are free. -/
def Files.CleanAt (F : Files) (p : Int) : Prop := ∀ i, 2 ≤ i → i < 8 → (F.table p i).present = -1

theorem Files.cleanAt_iff (F : Files) (p : Int) :
    (∀ i ∈ ([2, 3, 4, 5, 6, 7] : List Int), (F.table p i).present = -1) ↔ F.CleanAt p := by
  simp only [List.mem_cons, List.not_mem_nil, or_false]
  exact ⟨fun h i h2 h8 => h i (by omega), fun h i hi => h i (by omega) (by omega)⟩

instance (F : Files) (p : Int) : Decidable (F.CleanAt p) :=
  decidable_of_iff _ (F.cleanAt_iff p)

/-- The event is the `halt` of a process without a parent. -/
def Event.EndsRoot (s : Kernel) (e : Event) : Prop :=
  e.halts.isSome ∧ s.HasProcess ∧ s.procs.parent s.procs.running = -1

instance (s : Kernel) (e : Event) : Decidable (e.EndsRoot s) :=
  inferInstanceAs (Decidable (_ ∧ _ ∧ _))

/-- The event ends with the start of a process by `execute`. -/
def Event.StartsProcess (s : Kernel) : Event → Prop
  | .tickLaunch .. | .execUser .. => True
  | e => e.EndsRoot s

/-- A process that starts has free descriptors. -/
def StartsClean (s : Kernel) (e : Event) : Prop :=
  e.StartsProcess s → ∀ s', s.step e = some s' → s'.files.CleanAt s'.curr

/-- A process without a parent that ends has closed its descriptors, and a process that opens a
file has a PCB of its own. -/
def EndsClean (s : Kernel) (e : Event) : Prop :=
  (e.EndsRoot s → s.files.CleanAt s.curr) ∧ (e.Opens → (s.pcbs s.curr).pcbInUse ≠ -1)

instance (s : Kernel) (e : Event) : Decidable (EndsClean s e) :=
  inferInstanceAs (Decidable ((_ → _) ∧ (_ → _)))

/-- The invariant: a free PCB has free descriptors. -/
def FreeClean (s : Kernel) : Prop :=
  ∀ p, 0 ≤ p → p < 6 → s.procs.inUse p = -1 → s.files.CleanAt p

section NewProcess

variable {s s' : Kernel} {e : Event} {p : Int}

/-- Only a `sys_open` takes a descriptor of `p`. -/
theorem cleanAt_step (hc : s.files.CleanAt p) (h : s.step e = some s')
    (hne : e.Opens → p ≠ s.curr) : s'.files.CleanAt p := by
  cases filesStep h with
  | same _ _ hf =>
    rw [hf]
    exact hc
  | @openFd f _ _ hs =>
    intro i h2 h8
    rw [sysOpen_eq] at hs
    split at hs
    · rw [hs]
      exact hc i h2 h8
    · rename_i h0
      split at hs
      · rename_i d fd _ _
        rw [hs]
        show ((s.openedAs f d fd).fdEntry p i).present = -1
        rw [fdEntry_openedAs, if_neg fun he => hne h0 he.1]
        exact hc i h2 h8
      · rw [hs]
        exact hc i h2 h8
  | @closeFd fd _ _ hs =>
    intro i h2 h8
    rw [sysClose_eq] at hs
    split at hs
    · rw [hs]
      show ((s.closed fd).fdEntry p i).present = -1
      rw [fdEntry_closed]
      split
      · rfl
      · exact hc i h2 h8
    · rw [hs]
      exact hc i h2 h8
  | @fileRead fd _ _ mem n _ _ _ hs =>
    intro i h2 h8
    rw [hs]
    unfold Kernel.fileRead
    dsimp only
    split
    · show ((s.setFd s.curr fd _).fdEntry p i).present = -1
      rw [fdEntry_setFd]
      split
      · rename_i he
        rw [← he.1, ← he.2]
        exact hc i h2 h8
      · exact hc i h2 h8
    · exact hc i h2 h8
  | reap _ _ _ hf =>
    intro i h2 h8
    rw [hf, Files.clear_table]
    split
    · rfl
    · exact hc i h2 h8

/-- The PCBs that the loop of `halt` finds free: those that were, and the one it frees. -/
theorem restart_inUse {u : Kernel} {c : Int} {xs : List ExecIn}
    (h : Kernel.restart c u xs = some s') :
    (∀ q, s'.procs.inUse q = -1 → u.procs.inUse q = -1 ∨ q = c) ∧
    ((0 ≤ s'.curr ∧ s'.curr < 6) ∧ (u.procs.inUse s'.curr = -1 ∨ s'.curr = c)) := by
  have hdrop : ∀ q : Procs, (∀ a, q.inUse a = -1 → u.procs.inUse a = -1 ∨ a = c) →
      ∀ a, (q.drop c).inUse a = -1 → u.procs.inUse a = -1 ∨ a = c := by
    intro q hq a ha
    by_cases hac : a = c
    · exact .inr hac
    · exact hq a (by simpa [Procs.drop, hac] using ha)
  have henter : ∀ (q : Procs) (pid : Int) (x : ExecIn),
      (∀ a, q.inUse a = -1 → u.procs.inUse a = -1 ∨ a = c) →
      ∀ a, ((q.drop c).enter pid x).inUse a = -1 → u.procs.inUse a = -1 ∨ a = c := by
    intro q pid x hq a ha
    by_cases hap : a = pid
    · subst hap
      simp [Procs.enter] at ha
    · exact hdrop q hq a (by simpa [Procs.enter, hap] using ha)
  obtain ⟨q, pid, x, hq, hf, hp⟩ := restart_rule
    (K := fun q => ∀ a, q.inUse a = -1 → u.procs.inUse a = -1 ∨ a = c)
    (fun q hq => hdrop q hq) (fun q pid x hq _ => henter q pid x hq) (fun a ha => .inl ha) h
  have hcurr : s'.curr = pid := by
    rw [← running_eq, hp]
    simp [Procs.running, Procs.launch, Procs.enter]
  refine ⟨fun a ha => ?_, ?_⟩
  · rw [hp] at ha
    exact henter q pid x hq a ha
  · rw [hcurr]
    exact ⟨⟨hf.nonneg, hf.lt⟩, hdrop q hq pid hf.free⟩

/-- A PCB is free after a step if it was, or if its process ended. -/
theorem inUse_step (h : s.step e = some s') (hf : s'.procs.inUse p = -1) :
    s.procs.inUse p = -1 ∨ (e.halts.isSome ∧ s.HasProcess ∧ p = s.curr) := by
  have htake : ∀ (inUse : Int → Int) (pid : Int), Function.update inUse pid 0 p = -1 →
      inUse p = -1 := by
    intro inUse pid hq
    by_cases hpp : p = pid
    · subst hpp
      simp at hq
    · simpa [hpp] using hq
  cases procStep h with
  | quiet _ hp => exact .inl (hp ▸ hf)
  | tick hp => exact .inl (by rw [hp] at hf; exact hf)
  | tickTakes _ _ hp => exact .inl (by rw [hp] at hf; exact htake _ _ hf)
  | tickLaunch _ _ hp => exact .inl (by rw [hp] at hf; exact htake _ _ hf)
  | execUser _ _ hp => exact .inl (by rw [hp] at hf; exact htake _ _ hf)
  | execFail _ hp => exact .inl (hp ▸ hf)
  | execTakes _ _ hp => exact .inl (by rw [hp] at hf; exact htake _ _ hf)
  | reap he hh _ hp =>
    by_cases hpc : p = s.curr
    · exact .inr ⟨by rw [he]; rfl, hh, hpc⟩
    · left
      rw [hp] at hf
      simpa [Procs.reap, running_eq, hpc] using hf
  | restart he hh _ hu hr =>
    rcases (restart_inUse hr).1 p hf with hq | hq
    · exact .inl (hu.1 ▸ hq)
    · exact .inr ⟨by rw [he]; rfl, hh, hq⟩

/-- The PCB of a process that starts was free, or belonged to the process that ended. -/
theorem started_free (hs : e.StartsProcess s) (h : s.step e = some s') :
    (0 ≤ s'.curr ∧ s'.curr < 6) ∧
      (s.procs.inUse s'.curr = -1 ∨ (e.EndsRoot s ∧ s'.curr = s.curr)) := by
  have hlaunch : ∀ (q : Procs) (pid : Int) (x : ExecIn), s'.procs = q.launch pid x →
      s'.curr = pid := by
    intro q pid x hp
    rw [← running_eq, hp]
    simp [Procs.running, Procs.launch, Procs.enter]
  cases procStep h with
  | tickLaunch _ hf hp =>
    rw [hlaunch _ _ _ hp]
    exact ⟨⟨hf.nonneg, hf.lt⟩, .inl hf.free⟩
  | execUser _ hf hp =>
    rw [hlaunch _ _ _ hp]
    exact ⟨⟨hf.nonneg, hf.lt⟩, .inl hf.free⟩
  | restart he hh hroot hu hr =>
    obtain ⟨-, hrange, hq⟩ := restart_inUse hr
    exact ⟨hrange, hq.imp (fun hq => hu.1 ▸ hq) fun hq => ⟨⟨by rw [he]; rfl, hh, hroot⟩, hq⟩⟩
  | reap he hh hroot _ =>
    have hr : e.EndsRoot s := by cases e <;> first | exact hs | cases he
    exact absurd hr.2.2 hroot
  | quiet hq _ => cases e <;> first | exact absurd hq id | cases hs.1
  | _ => cases hs.1

/-- **One step keeps free PCBs clean**, if the process that ends has closed its descriptors. -/
theorem freeClean_step (hi : FreeClean s) (hg : EndsClean s e) (h : s.step e = some s') :
    FreeClean s' := by
  intro p h0 h6 hfree
  rcases inUse_step h hfree with hfree | ⟨he, hh, rfl⟩
  · refine cleanAt_step (hi p h0 h6 hfree) h fun ho => ?_
    rintro rfl
    exact hg.2 ho hfree
  · have hne : ¬ e.Opens := by cases e <;> first | exact id | cases he
    by_cases hroot : s.procs.parent s.procs.running = -1
    · exact cleanAt_step (hg.1 ⟨he, hh, hroot⟩) h fun ho => absurd ho hne
    · -- the `halt` of a child clears the table
      cases filesStep h with
      | same _ hn _ =>
        rcases hn with hn | hn
        · rw [hn] at he
          cases he
        · exact absurd hn hroot
      | reap _ _ _ hf =>
        intro i h2 h8
        rw [hf, Files.clear_table, if_pos ⟨rfl, h2, h8⟩]
      | _ => cases he

theorem startsClean_step (hi : FreeClean s) (hg : EndsClean s e) : StartsClean s e := by
  intro hs s' h
  have hne : ¬ e.Opens := by
    cases e <;> first | exact id | cases hs.1
  obtain ⟨⟨h0, h6⟩, hf | ⟨hroot, hc⟩⟩ := started_free hs h
  · exact cleanAt_step (hi _ h0 h6 hf) h fun ho => absurd ho hne
  · rw [hc]
    exact cleanAt_step (hg.1 hroot) h fun ho => absurd ho hne

theorem freeClean_boot (b : BootIn) : FreeClean (boot b) := by
  intro p h0 h6 _ i h2 h8
  show ((if 0 ≤ p ∧ p < 6 then _ else _ : Pcb).fdTable i).present = -1
  rw [if_pos ⟨h0, h6⟩]
  dsimp only
  rw [if_neg (by omega), if_pos ⟨h2, h8⟩]

/-- **A new process starts with free descriptors**, along every run from boot in which a process
without a parent has closed its descriptors when it ends, and a process that opens a file has a
PCB of its own. -/
theorem startsClean_of_run {b : BootIn} {es : List Event}
    (h : kernel.Along EndsClean (boot b) es) : kernel.Along StartsClean (boot b) es := by
  exact Lts.along_of_inv (I := FreeClean) (fun _ _ _ hu hg hs => freeClean_step hu hg hs)
    (fun _ _ hu hg => startsClean_step hu hg) (freeClean_boot b) h

/-- `ls` opens the device and ends, and `ls` runs again. -/
def lsRunsTwice : List Event :=
  sampleLaunches ++ [.execUser (cstr (lit ['l', 's'])) sampleExec, .openFd rtcName, .halt 0 [],
    .execUser (cstr (lit ['l', 's'])) sampleExec]

theorem startsClean_lsRunsTwice : kernel.Along EndsClean (boot sampleBoot) lsRunsTwice ∧
    (kernel.run (boot sampleBoot) lsRunsTwice).isSome ∧
    kernel.Along StartsClean (boot sampleBoot) lsRunsTwice := by
  have h : kernel.Along EndsClean (boot sampleBoot) lsRunsTwice := by decide +kernel
  exact ⟨h, by decide +kernel, startsClean_of_run h⟩

/-- A base shell opens the device. -/
def shellOpens : List Event := sampleLaunches ++ [.openFd rtcName]

/-- It exits, and the shell that takes its place has descriptor 2 in use. -/
theorem restarted_shell_has_descriptor :
    ¬ kernel.Along StartsClean (boot sampleBoot) (shellOpens ++ [.halt 0 [sampleExec]]) := by
  intro ha
  have hv : (kernel.run (boot sampleBoot) shellOpens).map (fun s =>
      (decide ((Event.halt 0 [sampleExec]).EndsRoot s),
        (s.step (.halt 0 [sampleExec])).map fun s' => (s'.fdEntry s'.curr 2).present)) =
      some (true, some 0) := by decide +kernel
  obtain ⟨u, hu, hv⟩ := Option.map_eq_some_iff.mp hv
  obtain ⟨hroot, hv⟩ := Prod.mk.inj hv
  obtain ⟨s', hs, hp⟩ := Option.map_eq_some_iff.mp hv
  have hroot : (Event.halt 0 [sampleExec]).EndsRoot u := of_decide_eq_true hroot
  have hclean : (s'.fdEntry s'.curr 2).present = -1 :=
    ha.at_event hu hroot s' hs 2 (by decide) (by decide)
  rw [hp] at hclean
  cases hclean

end NewProcess

end Mp3
