import Mp3Os.System

/-!
# Descriptor dispatch

What `sys_read` and `sys_write` on a descriptor `fd ≥ 2` are for: the operation table of the
caller's own entry decides (`ReadDispatches`, `WriteDispatches`). The code takes the table from
the entry that the globals `currPid` and `currFD` name instead, so it does this exactly when that
entry agrees with the caller's own (`ReadAgrees`, `WriteAgrees`).

* `readDispatches_iff`, `writeDispatches_iff`: one call, from any state.
* `dispatch_along_iff`: every call of a run, from any state.
-/

namespace Mp3

namespace Kernel

variable (s : Kernel)

/-- The descriptor is open in the table of the process that calls. -/
def IsOpen (fd : Int) : Prop := 2 ≤ fd ∧ fd < 8 ∧ (s.fdEntry s.curr fd).present ≠ -1

instance (fd : Int) : Decidable (s.IsOpen fd) := inferInstanceAs (Decidable (_ ∧ _))

/-- The entry that the globals name is in use. -/
def GlobalOpen : Prop := s.globalEntry.present ≠ -1 ∧ s.currFD ≠ -1

instance : Decidable s.GlobalOpen := inferInstanceAs (Decidable (_ ∧ _))

/-- What `sys_read` on a descriptor from 2 on is for: an open one reaches the table of its own
entry, any other gives -1 and changes nothing. -/
def ReadDispatches (fd : Int) (buf : Nat) (stack mem : Nat → UInt8) (nbytes : Int) : Prop :=
  if s.IsOpen fd then s.readTarget fd buf = .call (s.fdEntry s.curr fd).jumpStartIdx
  else s.sysRead fd buf stack mem nbytes = some ⟨-1, mem, s⟩

/-- The same for `sys_write`. -/
def WriteDispatches (fd : Int) (buf : Nat) (mem : Nat → UInt8) (nbytes : Int) : Prop :=
  if s.IsOpen fd then s.writeTarget fd buf = .call (s.fdEntry s.curr fd).jumpStartIdx
  else s.sysWrite fd buf mem nbytes = some ⟨-1, mem, s⟩

/-- The request is one that `sys_read` and `sys_write` take to an operation table: the
descriptor is below 6, the buffer is not NULL, and the globals name an entry in use. -/
def Served (fd : Int) (buf : Nat) : Prop := fd < 6 ∧ buf ≠ 0 ∧ s.GlobalOpen

instance (fd : Int) (buf : Nat) : Decidable (s.Served fd buf) :=
  inferInstanceAs (Decidable (_ ∧ _))

/-- The globals name an entry with the table of the caller's own one, or the descriptor is not
open and the request is not served. -/
def ReadAgrees (fd : Int) (buf : Nat) : Prop :=
  if s.IsOpen fd then
    s.Served fd buf ∧ s.globalEntry.jumpStartIdx = (s.fdEntry s.curr fd).jumpStartIdx
  else ¬ s.Served fd buf

/-- A `write` of the table refuses the data: files and directories always, the RTC a word that is
no frequency. -/
def Refuses (op : Option Fop) (mem : Nat → UInt8) : Prop :=
  op = some .dir ∨ op = some .file ∨ op = some .rtc ∧ ¬ rtcFreqOk (i32 (le32 mem 0))

/-- The same for `sys_write`, where a descriptor that is not open may also meet a table that
refuses the data. -/
def WriteAgrees (fd : Int) (buf : Nat) (mem : Nat → UInt8) : Prop :=
  if s.IsOpen fd then
    s.Served fd buf ∧ s.globalEntry.jumpStartIdx = (s.fdEntry s.curr fd).jumpStartIdx
  else ¬ s.Served fd buf ∨ Refuses s.globalEntry.jumpStartIdx mem

end Kernel

/-! ## One call -/

section OneCall

variable {s : Kernel} {fd : Int} {buf : Nat} {stack mem : Nat → UInt8} {nbytes : Int}

theorem readTarget_eq (h : 2 ≤ fd) :
    s.readTarget fd buf = if s.Served fd buf then .call s.globalEntry.jumpStartIdx else .reject := by
  by_cases hs : s.Served fd buf
  · obtain ⟨h6, hb, hp, hf⟩ := id hs
    rw [if_pos hs, Kernel.readTarget, if_neg (by omega), if_neg hb, if_neg (by omega),
      if_neg (by tauto)]
  · rw [if_neg hs, Kernel.readTarget]
    split_ifs with h6 hb h1 hg
    · rfl
    · rfl
    · omega
    · rfl
    · exact absurd ⟨by omega, hb, by tauto⟩ hs

theorem writeTarget_eq (h : 2 ≤ fd) :
    s.writeTarget fd buf =
      if s.Served fd buf then .call s.globalEntry.jumpStartIdx else .reject := by
  by_cases hs : s.Served fd buf
  · obtain ⟨h6, hb, hp, hf⟩ := id hs
    rw [if_pos hs, Kernel.writeTarget, if_neg (by omega), if_neg hb, if_neg (by omega),
      if_neg (by tauto)]
  · rw [if_neg hs, Kernel.writeTarget]
    split_ifs with h6 hb h1 hg
    · rfl
    · rfl
    · omega
    · rfl
    · exact absurd ⟨by omega, hb, by tauto⟩ hs

/-- A directory read that fails moves the cursor. -/
theorem dirRead_curfile_ne (fs : FileSys) (stack buf : Nat → UInt8) (n : Int)
    (h : (dirRead fs stack buf n).1 = -1) : (dirRead fs stack buf n).2.2.curfile ≠ fs.curfile := by
  unfold dirRead at h ⊢
  by_cases hw : u32 (fs.curfile + 1) = fs.numdentries
  · simp [hw] at h
  · simp only [hw, ↓reduceIte]
    unfold u32
    omega

/-- A file read that fails moves the position of its own entry. -/
theorem fileRead_filePos_ne (hfd : -1 < fd) (h : (s.fileRead fd mem nbytes).1 = -1) :
    ((s.fileRead fd mem nbytes).2.2.fdEntry s.curr fd).filePos ≠ (s.fdEntry s.curr fd).filePos := by
  unfold Kernel.fileRead at h ⊢
  simp only [gt_iff_lt, hfd, ↓reduceIte] at h ⊢
  generalize readData s.fs _ _ mem _ = r at h ⊢
  rw [Kernel.fdEntry_setFd_self]
  simp only [h]
  split <;> omega

/-- A `read` of a table that returns -1 leaves a trace. -/
theorem opRead_trace {op : Fop} {buf : Nat → UInt8} {s' : Kernel} (hfd : -1 < fd)
    (h : s.opRead op fd stack mem nbytes = some ⟨-1, buf, s'⟩) :
    s'.fs.curfile ≠ s.fs.curfile ∨
      (s'.fdEntry s.curr fd).filePos ≠ (s.fdEntry s.curr fd).filePos := by
  cases op with
  | rtc => simp [Kernel.opRead] at h
  | dir =>
    simp only [Kernel.opRead, Option.some.injEq, SysResult.mk.injEq] at h
    obtain ⟨h1, -, rfl⟩ := h
    exact .inl (dirRead_curfile_ne s.fs stack mem nbytes h1)
  | file =>
    simp only [Kernel.opRead, Option.some.injEq, SysResult.mk.injEq] at h
    obtain ⟨h1, -, rfl⟩ := h
    exact .inr (fileRead_filePos_ne hfd h1)
  | terminal =>
    obtain ⟨⟨ret, bytes, u⟩, hr, h⟩ := Option.map_eq_some_iff.mp h
    obtain ⟨-, _, _, -, h0, -⟩ := terminalRead_eq hr
    obtain ⟨h1, -⟩ := (SysResult.mk.injEq ..).mp h
    omega

/-- No `read` of a table returns -1 and leaves everything as it was. -/
theorem opRead_ne (op : Fop) (hfd : -1 < fd) :
    s.opRead op fd stack mem nbytes ≠ some ⟨-1, mem, s⟩ := by
  intro h
  rcases opRead_trace hfd h with hne | hne <;> exact hne rfl

/-- **`sys_read` dispatches as it should exactly when the globals agree.** -/
theorem readDispatches_iff (h : 2 ≤ fd) :
    s.ReadDispatches fd buf stack mem nbytes ↔ s.ReadAgrees fd buf := by
  unfold Kernel.ReadDispatches Kernel.ReadAgrees Kernel.sysRead
  rw [readTarget_eq h]
  by_cases hs : s.Served fd buf
  · simp only [hs, ↓reduceIte, Target.call.injEq, true_and, not_true_eq_false]
    split
    · rfl
    · cases s.globalEntry.jumpStartIdx with
      | none => simp
      | some op => simpa using opRead_ne op (by omega)
  · simp [hs]

theorem opWrite_iff (op : Fop) :
    s.opWrite op mem nbytes = ⟨-1, mem, s⟩ ↔ Kernel.Refuses (some op) mem := by
  cases op with
  | rtc =>
    by_cases h : rtcFreqOk (i32 (le32 mem 0)) <;>
      simp [Kernel.opWrite, rtcWrite, Kernel.Refuses, h]
  | dir => simp [Kernel.opWrite, Kernel.Refuses]
  | file => simp [Kernel.opWrite, Kernel.Refuses]
  | terminal =>
    simp only [Kernel.opWrite, Kernel.terminalWriteFrom, Kernel.terminalWrite, Kernel.Refuses,
      SysResult.mk.injEq]
    simp
    omega

/-- **`sys_write` dispatches as it should exactly when the globals agree.** -/
theorem writeDispatches_iff (h : 2 ≤ fd) :
    s.WriteDispatches fd buf mem nbytes ↔ s.WriteAgrees fd buf mem := by
  unfold Kernel.WriteDispatches Kernel.WriteAgrees Kernel.sysWrite
  rw [writeTarget_eq h]
  by_cases hs : s.Served fd buf
  · simp only [hs, ↓reduceIte, Target.call.injEq, true_and, not_true_eq_false, false_or]
    split
    · rfl
    · cases s.globalEntry.jumpStartIdx with
      | none => simp [Kernel.Refuses]
      | some op => simpa using opWrite_iff op
  · simp [hs]

end OneCall

/-! ## Every call of a run -/

/-- The event, if it reads or writes a descriptor from 2 on, is dispatched as it should be. -/
def Dispatches (s : Kernel) : Event → Prop
  | .read fd buf stack mem nbytes => 2 ≤ fd → s.ReadDispatches fd buf stack mem nbytes
  | .write fd buf mem nbytes => 2 ≤ fd → s.WriteDispatches fd buf mem nbytes
  | _ => True

/-- The globals agree with the caller's own entry. -/
def Agrees (s : Kernel) : Event → Prop
  | .read fd buf _ _ _ => 2 ≤ fd → s.ReadAgrees fd buf
  | .write fd buf mem _ => 2 ≤ fd → s.WriteAgrees fd buf mem
  | _ => True

theorem dispatches_iff (s : Kernel) (e : Event) : Dispatches s e ↔ Agrees s e := by
  cases e with
  | read fd buf stack mem nbytes => exact forall_congr' readDispatches_iff
  | write fd buf mem nbytes => exact forall_congr' writeDispatches_iff
  | _ => exact Iff.rfl

/-- **Dispatch along a run.** From any state, every read and write of a run is dispatched by the
caller's own table exactly when the globals agree with it at each of them. -/
theorem dispatch_along_iff (s : Kernel) (es : List Event) :
    kernel.Along Dispatches s es ↔ kernel.Along Agrees s es :=
  ⟨Lts.Along.mono fun s e => (dispatches_iff s e).mp,
    Lts.Along.mono fun s e => (dispatches_iff s e).mpr⟩

/-- A process opens `rtc` (descriptor 2) and `.` (descriptor 3). -/
def twoOpens : List Event :=
  sampleLaunches ++ [.openFd (cstr (lit ['r', 't', 'c'])), .openFd (cstr (lit ['.']))]

/-- A read of descriptor 2 then goes to the directory. -/
theorem read_goes_to_last_opened : ¬ kernel.Along Dispatches (boot sampleBoot)
    (twoOpens ++ [.read 2 1 (fun _ => 0) (fun _ => 0) 4]) := by
  intro ha
  have hv : (kernel.run (boot sampleBoot) twoOpens).map
      (fun s => (s.readTarget 2 1, decide (s.IsOpen 2), (s.fdEntry s.curr 2).jumpStartIdx)) =
      some (.call (some .dir), true, some .rtc) := by decide +kernel
  obtain ⟨u, hu, hv⟩ := Option.map_eq_some_iff.mp hv
  simp only [Prod.mk.injEq, decide_eq_true_eq] at hv
  have := ha.at_event hu (by decide)
  rw [Kernel.ReadDispatches, if_pos hv.2.1, hv.1, hv.2.2] at this
  cases this

end Mp3
