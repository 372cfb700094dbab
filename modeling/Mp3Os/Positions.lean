import Mp3Os.Descriptors

/-!
# File positions

The life cycle of `file_pos`: 0 after `sys_open`, moved by `file_read`. `insert_fdt` does not
set it and `remove_fd_entry` does not clear it, so an open starts at 0 exactly if the entry it
takes was left at 0. `file_read` adds what `read_data` returned whatever that is, so a failed
read moves the position too.

`positions_iff`: the life cycle along a run from any state, and exactly when it is kept.
-/

namespace Mp3

/-- The test of `syscall_read`: none of the three registers is -1. -/
def syscallReadAccepts (fd : Int) (buf : Nat) (nbytes : Int) : Prop :=
  u32 nbytes ≠ 4294967295 ∧ buf ≠ 4294967295 ∧ u32 fd ≠ 4294967295

namespace Kernel

variable (s : Kernel)

/-- The request is one that `sys_read` takes to `file_read`. -/
def ReadsFile (fd : Int) (buf : Nat) (nbytes : Int) : Prop :=
  s.HasProcess ∧ syscallReadAccepts fd buf nbytes ∧ s.readTarget fd buf = .call (some .file)

/-- What `file_read` makes of the entry it reads, by what it returns. -/
structure MovesPosition (fd : Int) (mem : Nat → UInt8) (nbytes : Int) : Prop where
  advance : 0 < (s.fileRead fd mem nbytes).1 →
    ((s.fileRead fd mem nbytes).2.2.fdEntry s.curr fd).filePos =
      (s.fdEntry s.curr fd).filePos + (s.fileRead fd mem nbytes).1
  rewind : (s.fileRead fd mem nbytes).1 = 0 →
    ((s.fileRead fd mem nbytes).2.2.fdEntry s.curr fd).filePos = 0
  keep : (s.fileRead fd mem nbytes).1 = -1 →
    (s.fileRead fd mem nbytes).2.2.fdEntry s.curr fd = s.fdEntry s.curr fd

/-- A `sys_open` of a regular file leaves its position at 0. -/
def OpensAtStart (f : Nat → UInt8) : Prop :=
  ∀ d, readDentryByName s.fs f = some d → d.fileType = 2 → (s.sysOpen f).1 ≠ -1 →
    ((s.sysOpen f).2.fdEntry s.curr (s.sysOpen f).1).filePos = 0

/-- The lowest free entry of the caller was left at 0. -/
def FreeAtStart (f : Nat → UInt8) : Prop :=
  ∀ d, readDentryByName s.fs f = some d → d.fileType = 2 → f 0 ≠ 0 →
    ∀ fd, s.files.LowestFree s.curr fd → (s.fdEntry s.curr fd).filePos = 0

end Kernel

/-- The event keeps to the life cycle of positions. -/
def FilePosOk (s : Kernel) : Event → Prop
  | .openFd f => s.HasProcess → s.OpensAtStart f
  | .read fd buf _ mem nbytes => s.ReadsFile fd buf nbytes → s.MovesPosition fd mem nbytes
  | _ => True

/-- The entry that an open takes was left at 0, and the inode that is read exists. -/
def PositionKept (s : Kernel) : Event → Prop
  | .openFd f => s.HasProcess → s.FreeAtStart f
  | .read fd buf _ _ nbytes => s.ReadsFile fd buf nbytes →
      u32 (s.fdEntry s.curr fd).inodeNumber ≤ s.fs.numinodes
  | _ => True

section Positions

variable {s : Kernel} {fd : Int} {buf : Nat} {mem : Nat → UInt8} {nbytes : Int}

/-- An open of a regular file starts at 0 exactly if the free entry was left there. -/
theorem opensAtStart_iff (s : Kernel) (f : Nat → UInt8) : s.OpensAtStart f ↔ s.FreeAtStart f := by
  refine forall_congr' fun d => forall_congr' fun hd => forall_congr' fun _ => ?_
  have heq := sysOpen_eq s f
  constructor
  · intro h h0 fd hl
    rw [if_neg h0, hd, freeFd_of_lowest hl] at heq
    have hge := hl.ge
    rw [heq, fdEntry_openedAs, if_pos ⟨rfl, rfl⟩] at h
    exact h (by show fd ≠ -1; omega)
  · intro h hret
    by_cases h0 : f 0 = 0
    · rw [heq, if_pos h0] at hret
      exact absurd rfl hret
    rw [if_neg h0, hd] at heq
    cases hf : s.freeFd with
    | none =>
      rw [hf] at heq
      rw [heq] at hret
      exact absurd rfl hret
    | some fd =>
      rw [hf] at heq
      rw [heq, fdEntry_openedAs, if_pos ⟨rfl, rfl⟩]
      exact h h0 fd (freeFd_some hf)

/-- `file_read` of a descriptor in one equation. -/
theorem fileRead_eq (h : 0 ≤ fd) (s : Kernel) (mem : Nat → UInt8) (nbytes : Int) :
    (s.fileRead fd mem nbytes).1 = (readData s.fs (u32 (s.fdEntry s.curr fd).inodeNumber)
      (u32 (s.fdEntry s.curr fd).filePos) mem (u32 nbytes)).1 ∧
    (s.fileRead fd mem nbytes).2.2.fdEntry s.curr fd = { s.fdEntry s.curr fd with
      filePos := if (s.fileRead fd mem nbytes).1 ≠ 0 then
        (s.fdEntry s.curr fd).filePos + (s.fileRead fd mem nbytes).1 else 0 } := by
  unfold Kernel.fileRead
  rw [if_pos (show fd > -1 by omega)]
  exact ⟨rfl, Kernel.fdEntry_setFd_self ..⟩

/-- `file_read` moves the position as it should exactly if it does not fail. -/
theorem movesPosition_iff (h : 0 ≤ fd) :
    s.MovesPosition fd mem nbytes ↔ (s.fileRead fd mem nbytes).1 ≠ -1 := by
  obtain ⟨-, he⟩ := fileRead_eq h s mem nbytes
  generalize hr : (s.fileRead fd mem nbytes).1 = r at he
  constructor
  · rintro hm rfl
    have hk := congrArg FdEntry.filePos (hm.keep hr)
    rw [he] at hk
    dsimp only at hk
    rw [if_pos (by decide)] at hk
    omega
  · intro hne
    refine ⟨fun hpos => ?_, fun h0 => ?_, fun h1 => absurd (hr.symm.trans h1) hne⟩
    · rw [he, hr, if_pos (by omega)]
    · rw [hr] at h0
      rw [he, h0, if_neg (by simp)]

theorem filePosOk_iff (s : Kernel) (e : Event) : FilePosOk s e ↔ PositionKept s e := by
  cases e with
  | openFd f => exact forall_congr' fun _ => opensAtStart_iff s f
  | read fd buf stack mem nbytes =>
    refine forall_congr' fun hr => ?_
    have h0 : 0 ≤ fd := by
      have := (readTarget_call hr.2.2).1
      omega
    have hlt := u32_lt nbytes
    rw [movesPosition_iff h0, (fileRead_eq h0 s mem nbytes).1, ne_eq,
      readData_eq_neg_one _ _ _ (u32_lt _) (by have := hr.2.1.1; omega)]
    omega
  | _ => exact Iff.rfl

/-- **Positions along a run.** From any state, every open of a run leaves its position at 0 and
every read moves it as it should, exactly if each open takes an entry that was left at 0 and each
read is of an inode that exists. -/
theorem positions_iff (s : Kernel) (es : List Event) :
    kernel.Along FilePosOk s es ↔ kernel.Along PositionKept s es :=
  ⟨Lts.Along.mono fun s e => (filePosOk_iff s e).mp, Lts.Along.mono fun s e => (filePosOk_iff s e).mpr⟩

/-- With the device open as 2, a shell opens the text as 3, reads two bytes of it and closes
it. -/
def partialRead : List Event :=
  sampleLaunches ++ [.openFd rtcName, .openFd textName,
    .read 3 1 (fun _ => 0) (fun _ => 0) 2, .closeFd 3]

/-- It opens the text again, which then starts at its third byte. -/
theorem reopened_file_starts_late :
    ¬ kernel.Along FilePosOk (boot sampleBoot) (partialRead ++ [.openFd textName]) := by
  intro ha
  have hv : (kernel.run (boot sampleBoot) partialRead).map (fun s =>
      (decide s.HasProcess, (readDentryByName s.fs textName).map Dentry.fileType,
        (s.sysOpen textName).1, ((s.sysOpen textName).2.fdEntry s.curr 3).filePos)) =
      some (true, some 2, 3, 2) := by decide +kernel
  obtain ⟨u, hu, hv⟩ := Option.map_eq_some_iff.mp hv
  simp only [Prod.mk.injEq, decide_eq_true_eq] at hv
  obtain ⟨hh, htype, hret, hpos⟩ := hv
  obtain ⟨d, hd, htype⟩ := Option.map_eq_some_iff.mp htype
  have h0 := ha.at_event hu hh d hd htype (by rw [hret]; decide)
  rw [hret, hpos] at h0
  cases h0

end Positions

end Mp3
