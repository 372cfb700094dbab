import Mp3Os.ReadData

/-!
# A call of `execute` that is interrupted

The gate of the system calls is a trap gate, so ticks interrupt `execute`, and the processes of
the other terminals run in between. `interleaved` is one call of `execute` on a terminal, cut at
the calls it makes (`Phase`), together with ticks and with whole `sys_open` and `execute` calls on
the other terminals. Without these it is `execute` (`execute_uninterrupted`).

`file_open` leaves what it found in `currDentry`, and the ELF test leaves the entry point in
`firstInstruct`: globals that every call writes. `otherStep` says what an event on another
terminal does to them and to the frames.
-/

namespace Mp3

/-- Where a call of `execute` is. -/
inductive Phase where
  | called
  | elfOpened
  | elfRead (buf : Nat → UInt8)
  | gotPid (buf : Nat → UInt8) (pid : Int)
  | entered (buf : Nat → UInt8) (pid : Int)
  | checked (pid : Int)
  | opened (pid : Int)
  | loaded (pid : Int)
  | running (pid : Int) (entry : UInt32)
  | failed

/-- Who goes on: the call itself, or something on another terminal. -/
inductive Turn where
  | own
  | other (e : Event)

/-- `temp` of `execute`: the first 128 bytes of the name. -/
def tempName (fname : Nat → UInt8) : Nat → UInt8 := fun i => if i < 128 then fname i else 0

namespace Kernel

variable (s : Kernel)

/-- `file_load` of at most `MAXBYTES` bytes to `0x08048000`. -/
def fileLoad : Int × Kernel :=
  let base := s.paging.pageDirectory 32 / 4194304 * 4194304 + 0x48000
  let (i, buf) := readData s.fs s.fs.currDentry.inodeNum 0 (fun i => s.umem (base + i)) 0x3B8000
  (i, { s with umem := fun a => if base ≤ a then buf (a - base) else s.umem a })

/-- One step of `execute`. -/
def execStep (fname : Nat → UInt8) (x : ExecIn) : Phase → Option (Kernel × Phase)
  | .called =>
    let (i, s) := s.fileOpen fname
    some (s, if i = -1 then .failed else .elfOpened)
  | .elfOpened =>
    let (error, buf, s) := s.fileRead (-1) x.buf 28
    some (s, if error = -1 then .failed else .elfRead buf)
  | .elfRead buf =>
    let (pid, s) := s.getPID
    some (s, if pid = -1 then .failed else .gotPid buf pid)
  | .gotPid buf pid => some (s.enterProcess pid x, .entered buf pid)
  | .entered buf pid =>
    if isElf buf then
      some ({ s with firstInstruct := UInt32.ofNat (le32 buf 24) }, .checked pid)
    else some (s, .failed)
  | .checked pid => some ((s.fileOpen (tempName fname)).2, .opened pid)
  | .opened pid => some (s.fileLoad.2, .loaded pid)
  | .loaded pid =>
    some ({ s with tss := ⟨kernelStack pid, kernelDs⟩ }, .running pid s.firstInstruct)
  | .running .. | .failed => none

/-- A tick, or a whole `sys_open` or `execute` on a terminal other than `t`. A tick of the boot
phase executes a shell on the next terminal. -/
def OnOther (t : Int) : Event → Prop
  | .tick .. | .tickLaunch .. => s.pitCount < 3 → (s.curTerminal + 1) % 3 ≠ t
  | .openFd .. | .execUser .. | .execFail .. => s.curTerminal ≠ t
  | _ => False

instance (t : Int) (e : Event) : Decidable (s.OnOther t e) :=
  match e with
  | .tick .. | .tickLaunch .. => inferInstanceAs (Decidable (_ → _))
  | .openFd .. | .execUser .. | .execFail .. => inferInstanceAs (Decidable (_ ≠ _))
  | .key .. | .keyFault .. | .halt .. | .exception .. | .closeFd .. | .read .. | .write .. |
    .getargs .. | .vidmap .. | .vidmapFault .. => isFalse id

/-- The name that the event looks up. -/
def lookup : Event → Option (Nat → UInt8)
  | .openFd f => if f 0 = 0 then none else some f
  | .execUser f _ | .execFail f _ => some f
  | .tick .. | .tickLaunch .. => if s.pitCount < 3 then some shellName else none
  | _ => none

end Kernel

/-- The name of the program that the event starts. -/
def Event.starts : Event → Option (Nat → UInt8)
  | .execUser f _ => some f
  | .tickLaunch .. => some shellName
  | _ => none

/-- `execute(fname)` on terminal `t`, and what happens on the other terminals meanwhile. -/
def interleaved (t : Int) (fname : Nat → UInt8) (x : ExecIn) : Lts (Kernel × Phase) Turn where
  step p
    | .own => if p.1.curTerminal = t then p.1.execStep fname x p.2 else none
    | .other e => if p.1.OnOther t e then (p.1.step e).map fun s => (s, p.2) else none

/-! ## The steps of the call -/

section Own

variable (s : Kernel) (fname : Nat → UInt8) (x : ExecIn) (buf : Nat → UInt8)

theorem execStep_called : s.execStep fname x .called = some (s.looked fname,
    if (s.fs.inodeOf fname).isSome then .elfOpened else .failed) := by
  unfold Kernel.execStep Kernel.fileOpen FileSys.inodeOf
  cases readDentryByName s.fs fname <;> rfl

theorem execStep_elfOpened : s.execStep fname x .elfOpened = some (s,
    if s.fs.currDentry.inodeNum > s.fs.numinodes then .failed
    else .elfRead (readData s.fs s.fs.currDentry.inodeNum 0 x.buf 28).2) := by
  have herr : (readData s.fs s.fs.currDentry.inodeNum 0 x.buf 28).1 = -1 ↔
      s.fs.currDentry.inodeNum > s.fs.numinodes :=
    readData_eq_neg_one s.fs s.fs.currDentry.inodeNum x.buf (by decide) (by decide)
  simp only [← herr]
  rfl

theorem execStep_elfRead_none (h : s.freePid = none) :
    s.execStep fname x (.elfRead buf) = some (s, .failed) := by
  unfold Kernel.execStep
  rw [getPID_none h]
  rfl

theorem execStep_elfRead_some {pid : Int} (h : s.freePid = some pid) :
    s.execStep fname x (.elfRead buf) =
      some (s.modPcb pid fun b => { b with pcbInUse := 0 }, .gotPid buf pid) := by
  have hne : pid ≠ -1 := by have := freePid_mem h; omega
  unfold Kernel.execStep
  rw [getPID_some h]
  simp [hne]

end Own

/-! ## Without other terminals -/

/-- The phase in which a result of `execute` is reached. -/
def ExecResult.At : ExecResult → Kernel × Phase → Prop
  | .user s, p => ∃ pid, p = (s, .running pid s.firstInstruct)
  | .fail s, p => p = (s, .failed)

/-- The call goes on undisturbed to this result. -/
def Finishes (t : Int) (fname : Nat → UInt8) (x : ExecIn) (p : Kernel × Phase) (r : ExecResult) :
    Prop :=
  ∃ n q, (interleaved t fname x).run p (List.replicate n .own) = some q ∧ r.At q

section Alone

variable {s s' : Kernel} {t : Int} {fname : Nat → UInt8} {x : ExecIn} {ph ph' : Phase}
  {r : ExecResult}

theorem finishes_at {p : Kernel × Phase} (h : r.At p) : Finishes t fname x p r := ⟨0, p, rfl, h⟩

theorem finishes_own (hc : s.curTerminal = t) (h : s.execStep fname x ph = some (s', ph'))
    (hf : Finishes t fname x (s', ph') r) : Finishes t fname x (s, ph) r := by
  obtain ⟨n, q, hr, hq⟩ := hf
  have hs : (interleaved t fname x).step (s, ph) .own = some (s', ph') := (if_pos hc).trans h
  refine ⟨n + 1, q, ?_, hq⟩
  rw [List.replicate_succ, Lts.run, hs, Option.bind_some]
  exact hr

theorem finishes_entered {pid : Int} {buf : Nat → UInt8} (hc : s.curTerminal = t) :
    Finishes t fname x (s.entered fname pid x, .entered buf pid)
      (if Kernel.isElf buf then .user (s.started fname pid x buf)
        else .fail (s.entered fname pid x)) := by
  by_cases he : Kernel.isElf buf
  · rw [if_pos he]
    refine finishes_own hc (if_pos he) ?_
    refine finishes_own hc rfl ?_
    refine finishes_own hc rfl ?_
    refine finishes_own hc rfl ?_
    exact finishes_at ⟨pid, rfl⟩
  · rw [if_neg he]
    exact finishes_own hc (if_neg he) (finishes_at rfl)

/-- **Without other terminals the steps are `execute`.** -/
theorem execute_uninterrupted (hc : s.curTerminal = t) :
    Finishes t fname x (s, .called) (s.execute fname x) := by
  rw [execute_eq]
  apply finishes_own hc (execStep_called ..)
  cases hd : readDentryByName s.fs fname with
  | none =>
    have hh : s.fs.header fname x.buf = none := by simp [FileSys.header, hd]
    simp only [FileSys.inodeOf, hd, hh]
    exact finishes_at rfl
  | some d =>
    have hfs : (s.looked fname).fs = { s.fs with currDentry := d } := by
      simp [Kernel.looked, FileSys.opened, hd]
    simp only [FileSys.inodeOf, hd, Option.map_some, Option.isSome_some, ↓reduceIte]
    apply finishes_own (s := s.looked fname) hc (execStep_elfOpened ..)
    rw [hfs]
    simp only [readData_currDentry]
    by_cases hi : d.inodeNum > s.fs.numinodes
    · have hh : s.fs.header fname x.buf = none := by simp [FileSys.header, hd, hi]
      simp only [hh, if_pos hi]
      exact finishes_at rfl
    have hh : s.fs.header fname x.buf = some (readData s.fs d.inodeNum 0 x.buf 28).2 := by
      simp [FileSys.header, hd, hi]
    simp only [hh, if_neg hi]
    cases hp : s.freePid with
    | none =>
      apply finishes_own (s := s.looked fname) hc (execStep_elfRead_none _ _ _ _ hp)
      exact finishes_at rfl
    | some pid =>
      apply finishes_own (s := s.looked fname) hc (execStep_elfRead_some _ _ _ _ hp)
      refine finishes_own hc rfl ?_
      exact finishes_entered hc

end Alone

/-! ## What a load writes -/

section Load

variable {s : Kernel} {pid : Int}

/-- A load writes to the frames only. -/
theorem fileLoad_eq (s : Kernel) : ∃ umem, s.fileLoad.2 = { s with umem := umem } := ⟨_, rfl⟩

/-- The image of a load is the file that `currDentry` names. -/
theorem fileLoad_image (h0 : 0 ≤ pid) (h5 : pid ≤ 5)
    (hpde : s.paging.pageDirectory 32 = userEntry pid)
    (hn : s.fs.currDentry.inodeNum ≤ s.fs.numinodes) {i : Nat}
    (he : i < s.fs.fileLength s.fs.currDentry.inodeNum) (hi : i < 0x3B8000) :
    s.fileLoad.2.umem (frameAddr pid + 0x48000 + i) =
      s.fs.fileByte s.fs.currDentry.inodeNum i := by
  simp only [Kernel.fileLoad, hpde, userEntry_frame h0 h5, frameAddr_eq h0 h5]
  rw [if_pos (by omega), Nat.add_sub_cancel_left]
  exact readData_byte hn (by decide) _ hi he

/-- A load leaves the frames of the other processes alone. -/
theorem fileLoad_other (h0 : 0 ≤ pid) (h5 : pid ≤ 5)
    (hpde : s.paging.pageDirectory 32 = userEntry pid) {q : Int} (hq0 : 0 ≤ q) (hq5 : q ≤ 5)
    (hne : q ≠ pid) {i : Nat} (hi : i < 4194304) :
    s.fileLoad.2.umem (frameAddr q + i) = s.umem (frameAddr q + i) := by
  simp only [Kernel.fileLoad, hpde, userEntry_frame h0 h5, frameAddr_eq hq0 hq5]
  split
  · -- the frame is behind that of `pid`, and so behind the request
    rename_i hle
    rw [readData_rest (by decide) _ (by omega), Nat.add_sub_cancel' hle]
  · rfl

end Load

section Names

theorem nameMatch_tempName (name : Buf 32) (f : Nat → UInt8) (fuel idx : Nat)
    (h : idx + fuel ≤ 128) : nameMatch name (tempName f) fuel idx = nameMatch name f fuel idx := by
  induction fuel generalizing idx with
  | zero => rfl
  | succ fuel ih =>
    have htemp : tempName f idx = f idx := if_pos (by omega)
    rw [nameMatch, nameMatch, htemp, ih (idx + 1) (by omega)]

/-- 128 bytes of a name are enough to find it. -/
theorem readDentryByName_tempName (fs : FileSys) (f : Nat → UInt8) :
    readDentryByName fs (tempName f) = readDentryByName fs f := by
  unfold readDentryByName
  simp only [nameMatch_tempName _ f 32 0 (by decide)]

theorem opened_tempName (fs : FileSys) (f : Nat → UInt8) :
    fs.opened (tempName f) = fs.opened f := by
  unfold FileSys.opened
  rw [readDentryByName_tempName]

theorem opened_opened (fs : FileSys) (f : Nat → UInt8) : (fs.opened f).opened f = fs.opened f := by
  have h := readDentryByName_opened fs f f
  unfold FileSys.opened at h ⊢
  cases hd : readDentryByName fs f with
  | none => simp [hd]
  | some d =>
    rw [hd] at h
    simp only at h ⊢
    rw [h]

end Names

/-! ## The calls of other terminals -/

/-- Files, images and entry point are as before. -/
structure SameImage (s s' : Kernel) : Prop where
  fs : s'.fs = s.fs
  umem : s'.umem = s.umem
  firstInstruct : s'.firstInstruct = s.firstInstruct

/-- The name was looked up, and no frame in use was written. -/
structure Looks (s s' : Kernel) (fname : Nat → UInt8) : Prop where
  fs : s'.fs = s.fs.opened fname
  umem : ∀ q, 0 ≤ q → q ≤ 5 → s.procs.inUse q ≠ -1 → ∀ i < 4194304,
    s'.umem (frameAddr q + i) = s.umem (frameAddr q + i)

/-- What an event on another terminal does to the globals that `execute` uses. -/
structure OtherStep (s s' : Kernel) (e : Event) : Prop where
  fs : s'.fs = match s.lookup e with
    | some f => s.fs.opened f
    | none => s.fs
  umem : ∀ q, 0 ≤ q → q ≤ 5 → s.procs.inUse q ≠ -1 → ∀ i < 4194304,
    s'.umem (frameAddr q + i) = s.umem (frameAddr q + i)
  firstInstruct : match e.starts with
    | some f => ∃ buf buf', s.fs.header f buf = some buf' ∧
        s'.firstInstruct = UInt32.ofNat (le32 buf' 24)
    | none => s'.firstInstruct = s.firstInstruct

section Calls

variable {s s' : Kernel} {fname : Nat → UInt8} {x : ExecIn}

theorem execute_user_looks (h : s.execute fname x = .user s') :
    Looks s s' fname ∧ ∃ buf, s.fs.header fname x.buf = some buf ∧
      s'.firstInstruct = UInt32.ofNat (le32 buf 24) := by
  rw [execute_eq] at h
  split at h
  · rename_i buf pid hb hp
    split at h
    · cases h
      obtain ⟨h0, h6⟩ := freePid_mem hp
      have hfree := (freePid_some hp).free
      have hpde : (s.entered fname pid x).paging.pageDirectory 32 = userEntry pid :=
        congrArg Procs.userPde (procs_entered fname pid x)
      refine ⟨⟨?_, fun q hq0 hq5 hu i hi => ?_⟩, buf, hb, rfl⟩
      · show (s.fs.opened fname).opened (tempName fname) = _
        rw [opened_tempName, opened_opened]
      · have hne : q ≠ pid := by
          rintro rfl
          exact hu hfree
        exact fileLoad_other (s := ((s.entered fname pid x).looked (tempName fname))) h0 (by omega)
          hpde hq0 hq5 hne hi
    · cases h
  · cases h

theorem execute_fail_looks (h : s.execute fname x = .fail s') :
    Looks s s' fname ∧ s'.firstInstruct = s.firstInstruct := by
  rw [execute_eq] at h
  split at h
  · split at h
    · cases h
    · cases h
      exact ⟨⟨rfl, fun _ _ _ _ _ _ => rfl⟩, rfl⟩
  · cases h
    exact ⟨⟨rfl, fun _ _ _ _ _ _ => rfl⟩, rfl⟩

/-- An event that touches none of the globals. -/
theorem SameImage.otherStep {e : Event} (h : SameImage s s') (hl : s.lookup e = none)
    (hs : e.starts = none) : OtherStep s s' e := by
  refine ⟨?_, fun q _ _ _ i _ => ?_, ?_⟩
  · rw [hl]
    exact h.fs
  · rw [h.umem]
  · rw [hs]
    exact h.firstInstruct

/-- An event that looks up a name and starts nothing. -/
theorem Looks.otherStep {e : Event} (h : Looks s s' fname) (hl : s.lookup e = some fname)
    (hs : e.starts = none) (hf : s'.firstInstruct = s.firstInstruct) : OtherStep s s' e := by
  refine ⟨?_, h.umem, ?_⟩
  · rw [hl]
    exact h.fs
  · rw [hs]
    exact hf

theorem SameImage.trans {u : Kernel} (h : SameImage s u) (h' : SameImage u s') : SameImage s s' :=
  ⟨h'.fs.trans h.fs, h'.umem.trans h.umem, h'.firstInstruct.trans h.firstInstruct⟩

/-- A lookup between steps that touch none of the globals. -/
theorem Looks.between {u v : Kernel} (hu : SameImage s u) (hq : u.procs.inUse = s.procs.inUse)
    (h : Looks u v fname) (hv : SameImage v s') : Looks s s' fname := by
  refine ⟨?_, fun q h0 h5 hne i hi => ?_⟩
  · rw [hv.fs, h.fs, hu.fs]
  · rw [hv.umem, h.umem q h0 h5 (by rwa [hq]) i hi, hu.umem]

theorem sameImage_switchTerminal (d : Int) : SameImage s (s.switchTerminal d) := by
  obtain ⟨_, _, _, _, _, _, h⟩ := Kernel.switchTerminal_differs (s := s) d
  rw [h]
  exact ⟨rfl, rfl, rfl⟩

/-- Up to the call of `execute`, a tick of the boot phase touches nothing that `execute` uses. -/
theorem sameImage_prepareShell (esp ebp : UInt32) :
    SameImage s (s.deschedule esp ebp).prepareShell := by
  have hfresh : ∀ u : Kernel, SameImage u u.freshScreen := fun u => ⟨rfl, rfl, rfl⟩
  have hd : SameImage s (s.deschedule esp ebp) := ⟨rfl, rfl, rfl⟩
  exact (hd.trans (sameImage_switchTerminal _)).trans (hfresh _)

theorem sameImage_reschedule {esp ebp : UInt32} (h : s.reschedule = .resume s' esp ebp) :
    SameImage s s' := by
  simp only [Kernel.reschedule, PitResult.resume.injEq] at h
  obtain ⟨rfl, -, -⟩ := h
  exact ⟨rfl, rfl, rfl⟩

theorem inUse_prepareShell (esp ebp : UInt32) :
    (s.deschedule esp ebp).prepareShell.procs.inUse = s.procs.inUse := by
  rw [procs_prepareShell, procs_deschedule]
  rfl

theorem otherStep_tick {esp ebp : UInt32} (h : s.step (.tick esp ebp x) = some s') :
    OtherStep s s' (.tick esp ebp x) := by
  simp only [Kernel.step] at h
  split at h
  · rename_i hr
    cases h
    rcases Kernel.pitHandler_cases (s := s) esp ebp x with
      ⟨u, -, -, hu⟩ | ⟨u, hlt, he, hu⟩ | ⟨h3, hu⟩ | ⟨hgt, hu⟩ <;> rw [hr] at hu
    · cases hu
    · obtain ⟨hl, hf⟩ := execute_fail_looks he
      have hp := sameImage_prepareShell (s := s) esp ebp
      have hs := sameImage_reschedule hu.symm
      exact (Looks.between hp (inUse_prepareShell esp ebp) hl hs).otherStep (if_pos hlt) rfl
        (hs.firstInstruct.trans (hf.trans hp.firstInstruct))
    · have hsw := sameImage_switchTerminal (s := s.deschedule esp ebp) 0
      have hs : SameImage s { (s.deschedule esp ebp).switchTerminal 0 with pitCount := 4 } :=
        ⟨hsw.fs, hsw.umem, hsw.firstInstruct⟩
      exact (hs.trans (sameImage_reschedule hu.symm)).otherStep (if_neg (by omega)) rfl
    · have hs : SameImage s (s.deschedule esp ebp) := ⟨rfl, rfl, rfl⟩
      exact (hs.trans (sameImage_reschedule hu.symm)).otherStep (if_neg (by omega)) rfl
  · cases h

theorem otherStep_tickLaunch {esp ebp : UInt32} (h : s.step (.tickLaunch esp ebp x) = some s') :
    OtherStep s s' (.tickLaunch esp ebp x) := by
  simp only [Kernel.step] at h
  split at h
  · cases h
  · rename_i hr
    cases h
    rcases Kernel.pitHandler_cases (s := s) esp ebp x with
      ⟨u, hlt, he, hu⟩ | ⟨u, -, -, hu⟩ | ⟨-, hu⟩ | ⟨-, hu⟩ <;> rw [hr] at hu
    · cases hu
      obtain ⟨hl, buf, hb, hf⟩ := execute_user_looks he
      have hp := sameImage_prepareShell (s := s) esp ebp
      have hname : s.lookup (.tickLaunch esp ebp x) = some shellName := if_pos hlt
      have hl := Looks.between hp (inUse_prepareShell esp ebp) hl ⟨rfl, rfl, rfl⟩
      rw [hp.fs] at hb
      refine ⟨?_, hl.umem, x.buf, buf, hb, hf⟩
      rw [hname]
      exact hl.fs
    all_goals cases hu

theorem otherStep_openFd {f : Nat → UInt8} (h : s.step (.openFd f) = some s') :
    OtherStep s s' (.openFd f) := by
  obtain ⟨-, h⟩ := syscall_eq h
  cases h
  rw [sysOpen_eq]
  split
  · rename_i h0
    exact SameImage.otherStep ⟨rfl, rfl, rfl⟩ (if_pos h0) rfl
  · rename_i h0
    have hl : ∀ d fd, Looks s (s.openedAs f d fd) f := fun _ _ => ⟨rfl, fun _ _ _ _ _ _ => rfl⟩
    have hn : Looks s (s.notOpened f) f := ⟨rfl, fun _ _ _ _ _ _ => rfl⟩
    split
    · exact (hl _ _).otherStep (if_neg h0) rfl rfl
    · exact hn.otherStep (if_neg h0) rfl rfl

/-- **What ticks and calls of other terminals do to the globals that `execute` uses.** -/
theorem otherStep {t : Int} {e : Event} (ho : s.OnOther t e) (h : s.step e = some s') :
    OtherStep s s' e := by
  cases e with
  | tick esp ebp x => exact otherStep_tick h
  | tickLaunch esp ebp x => exact otherStep_tickLaunch h
  | openFd f => exact otherStep_openFd h
  | execUser f x =>
    obtain ⟨-, h⟩ := syscall_eq h
    split at h
    · rename_i he
      cases h
      obtain ⟨hl, buf, hb, hf⟩ := execute_user_looks he
      exact ⟨hl.fs, hl.umem, x.buf, buf, hb, hf⟩
    · cases h
  | execFail f x =>
    obtain ⟨-, h⟩ := syscall_eq h
    split at h
    · cases h
    · rename_i he
      cases h
      obtain ⟨hl, hf⟩ := execute_fail_looks he
      exact hl.otherStep rfl rfl hf
  | _ => exact ho.elim

end Calls

end Mp3
