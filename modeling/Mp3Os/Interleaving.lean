import Mp3Os.Phases

/-!
# `execute` between the calls of other terminals

`LeavesExecute` is that no call of another terminal changes `currDentry` or `firstInstruct` while
a call of `execute` still needs them. Then the process that the call starts has the file as its
image, and the entry point is the file's (`startsFile_of_run`).

`ExecInv` is the invariant, phase by phase: what was read of the file so far, that the PCB stays
taken, and that the frame is mapped whenever the terminal of the call is scheduled.
-/

namespace Mp3

/-- The next step reads the file that `currDentry` names. -/
def Phase.readsNext : Phase → Bool
  | .elfOpened | .opened _ => true
  | _ => false

/-- The entry point is in `firstInstruct`. -/
def Phase.entrySet : Phase → Bool
  | .checked _ | .opened _ | .loaded _ => true
  | _ => false

/-- The image in the frame of `pid` is the file with this name, as far as it fits. -/
def Kernel.HoldsFile (s : Kernel) (fname : Nat → UInt8) (pid : Int) : Prop :=
  ∃ inode, s.fs.inodeOf fname = some inode ∧
    ∀ i < s.fs.fileLength inode, i < 0x3B8000 →
      s.umem (frameAddr pid + 0x48000 + i) = s.fs.fileByte inode i

/-- A process that has started has the file with this name as its image and bytes 24 to 27 of it
as its entry point. -/
def StartsFile (fname : Nat → UInt8) (p : Kernel × Phase) : Prop :=
  ∀ pid entry, p.2 = .running pid entry →
    p.1.HoldsFile fname pid ∧ p.1.fs.entryOf fname = some entry

/-- The file, if there is one, has a whole header. While the next step reads `currDentry`, the
other terminals look up no other file; from the ELF test to the start they start no program with
another entry point. -/
def LeavesExecute (fname : Nat → UInt8) (p : Kernel × Phase) : Turn → Prop
  | .own => p.1.fs.inodeOf fname = none ∨ (p.1.fs.entryOf fname).isSome
  | .other e =>
    (p.2.readsNext → ∀ g ∈ p.1.lookup e,
      p.1.fs.inodeOf g = none ∨ p.1.fs.inodeOf g = p.1.fs.inodeOf fname) ∧
    (p.2.entrySet → ∀ g ∈ e.starts, p.1.fs.entryOf g = p.1.fs.entryOf fname)

instance (fname : Nat → UInt8) (p : Kernel × Phase) (a : Turn) :
    Decidable (LeavesExecute fname p a) :=
  match a with
  | .own => inferInstanceAs (Decidable (_ ∨ _))
  | .other _ => inferInstanceAs (Decidable (_ ∧ _))

/-! ## The invariant of the call -/

namespace Kernel

variable (s : Kernel) (fname : Nat → UInt8)

/-- The file is on the disk and has a whole header. -/
structure Found (inode : Nat) : Prop where
  name : s.fs.inodeOf fname = some inode
  le : inode ≤ s.fs.numinodes
  long : 28 ≤ s.fs.fileLength inode

/-- The buffer has the header of the file. -/
def HasHeader (buf : Nat → UInt8) : Prop :=
  ∃ inode, s.Found fname inode ∧ ∀ i < 28, buf i = s.fs.fileByte inode i

/-- `currDentry` names the file. -/
def Current : Prop := s.fs.inodeOf fname = some s.fs.currDentry.inodeNum

/-- `firstInstruct` is the entry point of the file. -/
def EntrySet : Prop := s.fs.entryOf fname = some s.firstInstruct

/-- The PCB is taken. -/
structure Owns (pid : Int) : Prop where
  nonneg : 0 ≤ pid
  le : pid ≤ 5
  used : s.procs.inUse pid = 0

/-- The process is that of terminal `t`, and its frame is mapped while `t` is scheduled. -/
structure PlacedOn (t pid : Int) : Prop extends s.Owns pid where
  curr : s.procs.curr t = pid
  userPde : s.procs.cur = t → s.procs.userPde = userEntry pid

end Kernel

/-- What holds in each phase. -/
def ExecInv (t : Int) (fname : Nat → UInt8) : Kernel × Phase → Prop
  | (_, .called) => True
  | (s, .elfOpened) => s.Current fname ∧ (s.fs.entryOf fname).isSome
  | (s, .elfRead buf) => s.HasHeader fname buf
  | (s, .gotPid buf pid) => s.HasHeader fname buf ∧ s.Owns pid
  | (s, .entered buf pid) => s.HasHeader fname buf ∧ s.PlacedOn t pid
  | (s, .checked pid) => (∃ inode, s.Found fname inode) ∧ s.PlacedOn t pid ∧ s.EntrySet fname
  | (s, .opened pid) =>
    (∃ inode, s.Found fname inode) ∧ s.PlacedOn t pid ∧ s.EntrySet fname ∧ s.Current fname
  | (s, .loaded pid) => s.Owns pid ∧ s.EntrySet fname ∧ s.HoldsFile fname pid
  | (s, .running pid entry) =>
    s.Owns pid ∧ s.fs.entryOf fname = some entry ∧ s.HoldsFile fname pid
  | (_, .failed) => True

section Keeps

variable {s s' : Kernel} {t pid : Int} {fname buf : Nat → UInt8} {e : Event} {inode : Nat}

/-! ### Other terminals -/

theorem Kernel.Found.of_disk (h : s.Found fname inode) (hd : s'.fs.disk = s.fs.disk) :
    s'.Found fname inode := by
  refine ⟨?_, ?_, ?_⟩
  · rw [inodeOf_of_disk hd]
    exact h.name
  · rw [numinodes_of_disk hd]
    exact h.le
  · rw [fileLength_of_disk hd]
    exact h.long

theorem Kernel.HasHeader.of_disk (h : s.HasHeader fname buf) (hd : s'.fs.disk = s.fs.disk) :
    s'.HasHeader fname buf := by
  obtain ⟨inode, hf, hb⟩ := h
  refine ⟨inode, hf.of_disk hd, ?_⟩
  rw [fileByte_of_disk hd]
  exact hb

theorem Kernel.HoldsFile.of_disk (h : s.HoldsFile fname pid) (hd : s'.fs.disk = s.fs.disk)
    (hu : ∀ i < 4194304, s'.umem (frameAddr pid + i) = s.umem (frameAddr pid + i)) :
    s'.HoldsFile fname pid := by
  obtain ⟨inode, hi, hb⟩ := h
  refine ⟨inode, ?_, fun i hl h6 => ?_⟩
  · rw [inodeOf_of_disk hd]
    exact hi
  · rw [fileLength_of_disk hd] at hl
    rw [fileByte_of_disk hd, ← hb i hl h6, Nat.add_assoc]
    exact hu (0x48000 + i) (by omega)

/-- A lookup of the same file, or of none, leaves `currDentry` naming it. -/
theorem Kernel.Current.opened (h : s.Current fname) {g : Nat → UInt8}
    (hg : s.fs.inodeOf g = none ∨ s.fs.inodeOf g = s.fs.inodeOf fname)
    (hs : s'.fs = s.fs.opened g) : s'.Current fname := by
  have hd : s'.fs.disk = s.fs.disk := by rw [hs, disk_opened]
  unfold Kernel.Current at h ⊢
  rw [inodeOf_of_disk hd, hs]
  unfold FileSys.opened
  cases hr : readDentryByName s.fs g with
  | none => exact h
  | some d =>
    have hi : s.fs.inodeOf g = some d.inodeNum := by simp [FileSys.inodeOf, hr]
    rw [hi] at hg
    rcases hg with hg | hg
    · cases hg
    · exact hg.symm

/-- What the other terminals leave of the process table. -/
theorem other_procs (ho : s.OnOther t e) (h : s.step e = some s') :
    (∀ q, s.procs.inUse q = 0 → s'.procs.inUse q = 0) ∧ s'.procs.curr t = s.procs.curr t ∧
      (s'.procs.cur = t → s'.procs.userPde = userEntry (s'.procs.curr t)) := by
  have hin : ∀ {p : Procs} {pid q : Int}, p.inUse q = 0 → Function.update p.inUse pid 0 q = 0 := by
    intro p pid q hq
    by_cases hqp : q = pid
    · rw [hqp, Function.update_self]
    · rwa [Function.update_of_ne hqp]
  cases procStep h with
  | quiet hq hp =>
    cases e with
    | openFd f =>
      rw [hp]
      exact ⟨fun _ hq => hq, rfl, fun hc => absurd hc ho⟩
    | _ => first | exact ho.elim | exact hq.elim
  | tick hp =>
    rw [hp]
    refine ⟨fun _ hq => hq, rfl, fun hc => ?_⟩
    rw [← hc]
    rfl
  | tickTakes hlt _ hp =>
    have hne := ho hlt
    rw [hp]
    refine ⟨fun _ hq => hin hq, Function.update_of_ne (Ne.symm hne) .., fun hc => absurd hc hne⟩
  | tickLaunch hlt _ hp =>
    have hne := ho hlt
    rw [hp]
    refine ⟨fun _ hq => hin hq, Function.update_of_ne (Ne.symm hne) .., fun hc => absurd hc hne⟩
  | execUser _ _ hp =>
    rw [hp]
    exact ⟨fun _ hq => hin hq, Function.update_of_ne (Ne.symm ho) .., fun hc => absurd hc ho⟩
  | execFail _ hp =>
    rw [hp]
    exact ⟨fun _ hq => hq, rfl, fun hc => absurd hc ho⟩
  | execTakes _ _ hp =>
    rw [hp]
    exact ⟨fun _ hq => hin hq, Function.update_of_ne (Ne.symm ho) .., fun hc => absurd hc ho⟩
  | reap he => cases e <;> first | exact ho.elim | cases he
  | restart he => cases e <;> first | exact ho.elim | cases he

theorem Kernel.Owns.other (h : s.Owns pid) (ho : s.OnOther t e) (hs : s.step e = some s') :
    s'.Owns pid :=
  ⟨h.nonneg, h.le, (other_procs ho hs).1 pid h.used⟩

theorem Kernel.PlacedOn.other (h : s.PlacedOn t pid) (ho : s.OnOther t e) (hs : s.step e = some s') :
    s'.PlacedOn t pid := by
  obtain ⟨-, hcurr, hpde⟩ := other_procs ho hs
  have hc := hcurr.trans h.curr
  refine ⟨h.toOwns.other ho hs, hc, fun ht => ?_⟩
  rw [hpde ht, hc]

theorem Kernel.Current.other (h : s.Current fname) (ho : OtherStep s s' e)
    (hg : ∀ g ∈ s.lookup e, s.fs.inodeOf g = none ∨ s.fs.inodeOf g = s.fs.inodeOf fname) :
    s'.Current fname := by
  have hfs := ho.fs
  cases hl : s.lookup e with
  | none =>
    rw [hl] at hfs
    unfold Kernel.Current
    rw [hfs]
    exact h
  | some g =>
    rw [hl] at hfs
    exact h.opened (hg g hl) hfs

theorem Kernel.EntrySet.other (h : s.EntrySet fname) (ho : OtherStep s s' e)
    (hd : s'.fs.disk = s.fs.disk) (hg : ∀ g ∈ e.starts, s.fs.entryOf g = s.fs.entryOf fname) :
    s'.EntrySet fname := by
  have hf := ho.firstInstruct
  unfold Kernel.EntrySet at h ⊢
  rw [entryOf_of_disk hd, h]
  cases hl : e.starts with
  | none =>
    rw [hl] at hf
    rw [hf]
  | some g =>
    rw [hl] at hf
    obtain ⟨buf, buf', hb, hf⟩ := hf
    have he := (hg g hl).trans h
    rw [hf, header_entry hb he]

theorem Kernel.HoldsFile.other (h : s.HoldsFile fname pid) (hown : s.Owns pid)
    (ho : OtherStep s s' e) (hd : s'.fs.disk = s.fs.disk) : s'.HoldsFile fname pid := by
  refine h.of_disk hd (ho.umem pid hown.nonneg hown.le ?_)
  rw [hown.used]
  decide

/-- **A tick or a call of another terminal keeps the invariant.** -/
theorem execInv_other {ph : Phase} (h : ExecInv t fname (s, ph))
    (hg : LeavesExecute fname (s, ph) (.other e)) (ho : s.OnOther t e) (hs : s.step e = some s') :
    ExecInv t fname (s', ph) := by
  have hd := disk_step hs
  have hst := otherStep ho hs
  cases ph with
  | called => trivial
  | elfOpened =>
    refine ⟨h.1.other hst (hg.1 rfl), ?_⟩
    rw [entryOf_of_disk hd]
    exact h.2
  | elfRead buf => exact Kernel.HasHeader.of_disk h hd
  | gotPid buf pid => exact ⟨h.1.of_disk hd, h.2.other ho hs⟩
  | entered buf pid => exact ⟨h.1.of_disk hd, h.2.other ho hs⟩
  | checked pid =>
    obtain ⟨⟨inode, hf⟩, hp, he⟩ := h
    exact ⟨⟨inode, hf.of_disk hd⟩, hp.other ho hs, he.other hst hd (hg.2 rfl)⟩
  | opened pid =>
    obtain ⟨⟨inode, hf⟩, hp, he, hc⟩ := h
    exact ⟨⟨inode, hf.of_disk hd⟩, hp.other ho hs, he.other hst hd (hg.2 rfl),
      hc.other hst (hg.1 rfl)⟩
  | loaded pid =>
    obtain ⟨hown, he, hf⟩ := h
    exact ⟨hown.other ho hs, he.other hst hd (hg.2 rfl), hf.other hown hst hd⟩
  | running pid entry =>
    obtain ⟨hown, he, hf⟩ := h
    refine ⟨hown.other ho hs, ?_, hf.other hown hst hd⟩
    rw [entryOf_of_disk hd]
    exact he
  | failed => trivial

/-! ### The call itself -/

/-- A lookup of the file makes `currDentry` name it. -/
theorem current_opened (h : s.fs.inodeOf fname = some inode) (hs : s'.fs = s.fs.opened fname) :
    s'.Current fname := by
  obtain ⟨d, hr, rfl⟩ := Option.map_eq_some_iff.mp h
  have hd : s'.fs.disk = s.fs.disk := by rw [hs, disk_opened]
  unfold Kernel.Current
  rw [inodeOf_of_disk hd, h, hs]
  simp only [FileSys.opened, hr]

theorem owns_getPID (h : s.freePid = some pid) :
    (s.modPcb pid fun b => { b with pcbInUse := 0 }).Owns pid := by
  obtain ⟨h0, h6⟩ := freePid_mem h
  refine ⟨h0, by omega, ?_⟩
  simp [Kernel.procs, Kernel.modPcb]

theorem placedOn_enterProcess (hc : s.curTerminal = t) (h : s.Owns pid) (x : ExecIn) :
    (s.enterProcess pid x).PlacedOn t pid := by
  refine ⟨⟨h.nonneg, h.le, ?_⟩, ?_, fun _ => ?_⟩
  · have hu := h.used
    simpa [Kernel.procs, Kernel.enterProcess, Kernel.mapProcess, Kernel.modTerm, Kernel.modPcb]
      using hu
  · simp [Kernel.procs, Kernel.enterProcess, Kernel.mapProcess, Kernel.modTerm, Kernel.modPcb, hc]
  · unfold Kernel.enterProcess
    exact congrArg Procs.userPde (procs_mapProcess pid)

theorem owns_fileLoad (h : s.Owns pid) : s.fileLoad.2.Owns pid := by
  obtain ⟨umem, hu⟩ := fileLoad_eq s
  rw [hu]
  exact ⟨h.nonneg, h.le, h.used⟩

theorem entrySet_fileLoad (h : s.EntrySet fname) : s.fileLoad.2.EntrySet fname := by
  obtain ⟨umem, hu⟩ := fileLoad_eq s
  rw [hu]
  exact h

/-- What `file_load` reads while `currDentry` names the file. -/
theorem holdsFile_fileLoad (hc : s.curTerminal = t) (hp : s.PlacedOn t pid)
    (hf : s.Found fname inode) (hcur : s.Current fname) : s.fileLoad.2.HoldsFile fname pid := by
  obtain rfl : inode = s.fs.currDentry.inodeNum := Option.some.inj (hf.name.symm.trans hcur)
  have hfs : s.fileLoad.2.fs = s.fs := by
    obtain ⟨umem, hu⟩ := fileLoad_eq s
    rw [hu]
  refine ⟨s.fs.currDentry.inodeNum, ?_, fun i hl h6 => ?_⟩
  · rw [hfs]
    exact hcur
  · rw [hfs] at hl ⊢
    exact fileLoad_image hp.nonneg hp.le (hp.userPde hc) hf.le hl h6

/-- **A step of the call keeps the invariant.** -/
theorem execInv_own {x : ExecIn} {ph ph' : Phase} (h : ExecInv t fname (s, ph))
    (hg : LeavesExecute fname (s, ph) .own) (hc : s.curTerminal = t)
    (hs : s.execStep fname x ph = some (s', ph')) : ExecInv t fname (s', ph') := by
  cases ph with
  | called =>
    rw [execStep_called] at hs
    cases hs
    split
    · rename_i hsome
      obtain ⟨inode, hi⟩ := Option.isSome_iff_exists.mp hsome
      have hd : (s.looked fname).fs.disk = s.fs.disk := disk_opened ..
      refine ⟨current_opened hi rfl, ?_⟩
      rw [entryOf_of_disk hd]
      rcases hg with hn | he
      · rw [hi] at hn
        cases hn
      · exact he
    · trivial
  | elfOpened =>
    rw [execStep_elfOpened] at hs
    cases hs
    split
    · trivial
    · rename_i hn
      obtain ⟨hcur, he⟩ := h
      have hl := fileLength_of_entryOf hcur he
      refine ⟨_, ⟨hcur, by omega, hl⟩, fun i hi => ?_⟩
      exact readData_byte (by omega) (by decide) x.buf hi (by omega)
  | elfRead buf =>
    cases hp : s.freePid with
    | none =>
      rw [execStep_elfRead_none _ _ _ _ hp] at hs
      cases hs
      trivial
    | some pid =>
      rw [execStep_elfRead_some _ _ _ _ hp] at hs
      cases hs
      exact ⟨Kernel.HasHeader.of_disk h rfl, owns_getPID hp⟩
  | gotPid buf pid =>
    cases hs
    exact ⟨h.1.of_disk rfl, placedOn_enterProcess hc h.2 x⟩
  | entered buf pid =>
    obtain ⟨⟨inode, hf, hb⟩, hp⟩ := h
    simp only [Kernel.execStep] at hs
    split at hs
    · cases hs
      refine ⟨⟨inode, hf.of_disk rfl⟩, ⟨⟨hp.nonneg, hp.le, hp.used⟩, hp.curr, hp.userPde⟩, ?_⟩
      exact (entryOf_eq hf.name hf.long).trans (by rw [le32_header hb])
    · cases hs
      trivial
  | checked pid =>
    obtain ⟨⟨inode, hf⟩, hp, he⟩ := h
    cases hs
    have hfs : (s.fileOpen (tempName fname)).2.fs = s.fs.opened fname := opened_tempName ..
    have hd : (s.fileOpen (tempName fname)).2.fs.disk = s.fs.disk := by rw [hfs, disk_opened]
    refine ⟨⟨inode, hf.of_disk hd⟩, ⟨⟨hp.nonneg, hp.le, hp.used⟩, hp.curr, hp.userPde⟩, ?_,
      current_opened hf.name hfs⟩
    exact (congrFun (entryOf_of_disk hd) fname).trans he
  | opened pid =>
    obtain ⟨⟨inode, hf⟩, hp, he, hcur⟩ := h
    cases hs
    exact ⟨owns_fileLoad hp.toOwns, entrySet_fileLoad he, holdsFile_fileLoad hc hp hf hcur⟩
  | loaded pid =>
    obtain ⟨hown, he, hf⟩ := h
    cases hs
    exact ⟨⟨hown.nonneg, hown.le, hown.used⟩, he, hf⟩
  | running pid entry => cases hs
  | failed => cases hs

end Keeps

/-! ## Runs -/

section Run

variable {s : Kernel} {t : Int} {fname : Nat → UInt8} {x : ExecIn}

theorem execInv_step {p q : Kernel × Phase} {a : Turn} (h : ExecInv t fname p)
    (hg : LeavesExecute fname p a) (hs : (interleaved t fname x).step p a = some q) :
    ExecInv t fname q := by
  cases a with
  | own =>
    simp only [interleaved] at hs
    split at hs
    · rename_i hc
      exact execInv_own h hg hc hs
    · cases hs
  | other e =>
    simp only [interleaved] at hs
    split at hs
    · rename_i ho
      obtain ⟨s', hs', rfl⟩ := Option.map_eq_some_iff.mp hs
      exact execInv_other h hg ho hs'
    · cases hs

/-- **A call of `execute` that the other terminals leave alone starts the file it was asked
for.** -/
theorem startsFile_of_run {as : List Turn}
    (h : (interleaved t fname x).Along (LeavesExecute fname) (s, .called) as) :
    (interleaved t fname x).Always (StartsFile fname) (s, .called) as := by
  refine Lts.always_of_inv (I := ExecInv t fname) (fun _ _ _ hi hg hs => execInv_step hi hg hs)
    ?_ trivial h
  rintro ⟨u, ph⟩ hi pid entry rfl
  exact ⟨hi.2.2, hi.2.1⟩

/-- The small machine with its three shells; terminal 2 is scheduled. -/
def sampleShells : Kernel := (kernel.run (boot sampleBoot) sampleLaunches).getD (boot sampleBoot)

def lsName : Nat → UInt8 := cstr (lit ['l', 's'])

/-- The shell of terminal 0 opens this file, and terminal 2 is scheduled again. -/
def opensMeanwhile (f : Nat → UInt8) : List Turn :=
  [.other (.tick 0 0 sampleExec), .other (.openFd f), .other (.tick 0 0 sampleExec),
    .other (.tick 0 0 sampleExec)]

/-- The process that the call has started. -/
def Phase.startedPid : Phase → Option Int
  | .running pid _ => some pid
  | _ => none

theorem Phase.startedPid_some {ph : Phase} {pid : Int} (h : ph.startedPid = some pid) :
    ∃ entry, ph = .running pid entry := by
  cases ph <;> cases h
  exact ⟨_, rfl⟩

/-- `frame0` is opened before the entry point is set, and `ls` before it is loaded. -/
def opensHarmlessly : List Turn :=
  List.replicate 3 .own ++ opensMeanwhile textName ++ List.replicate 3 .own ++
    opensMeanwhile lsName ++ List.replicate 2 .own

theorem startsFile_opensHarmlessly :
    ((interleaved 2 lsName sampleExec).run (sampleShells, .called) opensHarmlessly).map
      (fun p => p.2.startedPid) = some (some 3) ∧
    (interleaved 2 lsName sampleExec).Along (LeavesExecute lsName) (sampleShells, .called)
      opensHarmlessly ∧
    (interleaved 2 lsName sampleExec).Always (StartsFile lsName) (sampleShells, .called)
      opensHarmlessly := by
  have hg : (interleaved 2 lsName sampleExec).Along (LeavesExecute lsName) (sampleShells, .called)
      opensHarmlessly := by decide +kernel
  exact ⟨by decide +kernel, hg, startsFile_of_run hg⟩

/-- `frame0` is opened between `file_open` and `file_load`. -/
def opensBetween : List Turn :=
  List.replicate 6 .own ++ opensMeanwhile textName ++ List.replicate 2 .own

/-- The process of `ls` gets the image of `frame0`. -/
theorem open_between_changes_image :
    kernel.run (boot sampleBoot) sampleLaunches = some sampleShells ∧
    ((interleaved 2 lsName sampleExec).run (sampleShells, .called) opensBetween).isSome ∧
    ¬ (interleaved 2 lsName sampleExec).Always (StartsFile lsName) (sampleShells, .called)
      opensBetween := by
  have hshells : (kernel.run (boot sampleBoot) sampleLaunches).isSome := by decide +kernel
  have hv : ((interleaved 2 lsName sampleExec).run (sampleShells, .called) opensBetween).map
      (fun p => (p.2.startedPid, p.1.fs.inodeOf lsName, p.1.fs.fileLength 0, p.1.fs.fileByte 0 0,
        p.1.umem (frameAddr 3 + 0x48000))) =
      some (some 3, some 0, 40, 0x7F, ch 't') := by decide +kernel
  obtain ⟨⟨s, ph⟩, hs, hv⟩ := Option.map_eq_some_iff.mp hv
  simp only [Prod.mk.injEq] at hv
  obtain ⟨hph, hinode, hlen, hbyte, humem⟩ := hv
  refine ⟨?_, by simp [hs], fun ha => ?_⟩
  · obtain ⟨u, hu⟩ := Option.isSome_iff_exists.mp hshells
    simp [sampleShells, hu]
  · obtain ⟨entry, rfl⟩ := Phase.startedPid_some hph
    obtain ⟨inode, hi, hb⟩ := (ha.last hs 3 entry rfl).1
    obtain rfl : inode = 0 := Option.some.inj (hi.symm.trans hinode)
    have h0 := hb 0 (by rw [hlen]; decide) (by decide)
    rw [Nat.add_zero, hbyte, humem] at h0
    exact absurd h0 (by decide)

end Run

end Mp3
