import Mp3Os.Dispatch
import Mp3Os.Files

/-!
# The globals of `syscall.c`

`sys_read` and `sys_write` fetch the routine to call through `PCB_array[currPid]
.fd_table[currFD]`. `sys_open` sets both globals, to -1 and the caller when it fails;
`sys_close` of any open descriptor decrements `currFD`.

`globalsStep` says what every event does to them. They stay inside the tables (`CurrInTable`)
exactly if no descriptor is closed while `currFD` is -1 (`currInTable_iff`).
-/

namespace Mp3

/-- A `sys_open` that gets as far as `insert_fdt`. -/
def Event.Opens : Event → Prop
  | .openFd f => f 0 ≠ 0
  | _ => False

/-- A `sys_close` that frees a descriptor. -/
def Event.Frees (s : Kernel) : Event → Prop
  | .closeFd fd => s.Closes fd
  | _ => False

instance : ∀ e : Event, Decidable e.Opens
  | .openFd _ => inferInstanceAs (Decidable (_ ≠ _))
  | .tick .. | .tickLaunch .. | .key .. | .keyFault .. | .execUser .. | .execFail .. | .halt ..
  | .exception .. | .closeFd .. | .read .. | .write .. | .getargs .. | .vidmap ..
  | .vidmapFault .. => inferInstanceAs (Decidable False)

instance (s : Kernel) : ∀ e : Event, Decidable (e.Frees s)
  | .closeFd fd => inferInstanceAs (Decidable (s.Closes fd))
  | .tick .. | .tickLaunch .. | .key .. | .keyFault .. | .execUser .. | .execFail .. | .halt ..
  | .exception .. | .openFd .. | .read .. | .write .. | .getargs .. | .vidmap ..
  | .vidmapFault .. => inferInstanceAs (Decidable False)

/-- What an event does to the globals: every way in which it can end. -/
inductive GlobalsStep (s : Kernel) : Event → Kernel → Prop
  | same {e : Event} {s' : Kernel} : ¬ e.Opens → ¬ e.Frees s → s'.currFD = s.currFD →
      s'.currPid = s.currPid → GlobalsStep s e s'
  | opens {e : Event} {s' : Kernel} : e.Opens → s.HasProcess →
      (s'.currFD = -1 ∨ 2 ≤ s'.currFD ∧ s'.currFD < 8) → s'.currPid = s.curr → GlobalsStep s e s'
  | frees {e : Event} {s' : Kernel} : e.Frees s → s'.currFD = s.currFD - 1 →
      s'.currPid = s.currPid → GlobalsStep s e s'

section Step

variable {s s' : Kernel} {e : Event}

/-- **What every event does to the globals.** -/
theorem globalsStep (h : s.step e = some s') : GlobalsStep s e s' := by
  cases filesStep h with
  | same hl _ hf =>
    refine .same ?_ ?_ (congrArg Files.currFD hf) (congrArg Files.currPid hf)
    · cases e <;> first | exact id | exact absurd hl id
    · cases e <;> first | exact id | exact absurd hl id
  | @openFd f _ hh hs =>
    rw [sysOpen_eq] at hs
    by_cases h0 : f 0 = 0
    · rw [if_pos h0] at hs
      exact .same (fun h : f 0 ≠ 0 => h h0) id (by rw [hs]) (by rw [hs])
    · rw [if_neg h0] at hs
      split at hs
      · rename_i hf
        exact .opens h0 hh (.inr (by rw [hs]; exact ⟨(freeFd_some hf).ge, (freeFd_some hf).lt⟩))
          (by rw [hs]; rfl)
      · exact .opens h0 hh (.inl (by rw [hs]; rfl)) (by rw [hs]; rfl)
  | @closeFd fd _ _ hs =>
    rw [sysClose_eq] at hs
    by_cases hc : s.Closes fd
    · rw [if_pos hc] at hs
      exact .frees hc (by rw [hs]; rfl) (by rw [hs]; rfl)
    · rw [if_neg hc] at hs
      exact .same id hc (by rw [hs]) (by rw [hs])
  | fileRead _ _ hs =>
    subst hs
    refine .same id id ?_ ?_ <;> (unfold Kernel.fileRead; dsimp only; split <;> rfl)
  | reap he _ _ hf =>
    refine .same ?_ ?_ (congrArg Files.currFD hf) (congrArg Files.currPid hf)
    · cases e <;> first | exact id | cases he
    · cases e <;> first | exact id | cases he

end Step

/-! ## The range of the globals -/

/-- The globals name an entry of a table, or `currFD` is -1; what `sys_read` and `sys_write` call
is taken from an entry of a table. -/
structure CurrInTable (s : Kernel) : Prop where
  fd : -1 ≤ s.currFD ∧ s.currFD ≤ 7
  pid : 0 ≤ s.currPid ∧ s.currPid < 6
  read : ∀ fd buf op, s.readTarget fd buf = .call op → 0 ≤ s.currFD ∧ s.currFD < 8
  write : ∀ fd buf op, s.writeTarget fd buf = .call op → 0 ≤ s.currFD ∧ s.currFD < 8

/-- A descriptor is closed only while `currFD` is not -1. -/
def ClosesInTable (s : Kernel) (e : Event) : Prop := e.Frees s → 0 ≤ s.currFD

instance (s : Kernel) (e : Event) : Decidable (ClosesInTable s e) :=
  inferInstanceAs (Decidable (_ → _))

section Range

variable {s s' : Kernel} {e : Event}

/-- The tests of `sys_read` and `sys_write` leave -1 out. -/
theorem currFD_ne_of_call {fd : Int} {buf : Nat} {op : Option Fop}
    (h : s.readTarget fd buf = .call op ∨ s.writeTarget fd buf = .call op) : s.currFD ≠ -1 := by
  intro hc
  unfold Kernel.readTarget Kernel.writeTarget at h
  simp only [hc, or_true, ↓reduceIte] at h
  rcases h with h | h <;> split_ifs at h

theorem currInTable_iff_range :
    CurrInTable s ↔ (-1 ≤ s.currFD ∧ s.currFD ≤ 7) ∧ 0 ≤ s.currPid ∧ s.currPid < 6 := by
  constructor
  · intro h
    exact ⟨h.fd, h.pid⟩
  · rintro ⟨hf, hp⟩
    refine ⟨hf, hp, fun fd buf op h => ?_, fun fd buf op h => ?_⟩
    · have := currFD_ne_of_call (.inl h)
      omega
    · have := currFD_ne_of_call (.inr h)
      omega

/-- **One step keeps the globals in the tables exactly if it closes no descriptor at -1.** -/
theorem currInTable_step (hi : s.procs.InRange) (hc : CurrInTable s) (h : s.step e = some s') :
    CurrInTable s' ↔ ClosesInTable s e := by
  rw [currInTable_iff_range] at hc ⊢
  obtain ⟨hf, hp⟩ := hc
  cases globalsStep h with
  | same ho hn hfd hpid =>
    rw [hfd, hpid]
    exact ⟨fun _ h => absurd h hn, fun _ => ⟨hf, hp⟩⟩
  | opens ho hh hfd hpid =>
    have hlt : s.curr < 6 := (hi.curr s.curTerminal).2
    have hge : 0 ≤ s.curr := hh
    rw [hpid]
    refine ⟨fun _ hn => ?_, fun _ => ⟨by omega, hge, hlt⟩⟩
    cases e <;> first | exact absurd hn id | exact absurd ho id
  | frees hn hfd hpid =>
    rw [hfd, hpid]
    refine ⟨fun h _ => by omega, fun h => ?_⟩
    have := h hn
    exact ⟨by omega, hp⟩

/-- **The globals stay in the tables along a run from boot exactly if no descriptor is closed
while `currFD` is -1.** -/
theorem currInTable_iff {b : BootIn} {es : List Event}
    (hr : (kernel.run (boot b) es).isSome) :
    kernel.Always CurrInTable (boot b) es ↔ kernel.Along ClosesInTable (boot b) es := by
  obtain ⟨s', hr⟩ := Option.isSome_iff_exists.mp hr
  have hboot : CurrInTable (boot b) := by
    rw [currInTable_iff_range]
    show (-1 ≤ (0 : Int) ∧ (0 : Int) ≤ 7) ∧ 0 ≤ (0 : Int) ∧ (0 : Int) < 6
    decide
  exact Lts.always_iff_along (I := fun u : Kernel => u.procs.InRange)
    (fun _ _ _ hu hs => inRange_step hu hs) (fun _ _ _ hu hc hs => currInTable_step hu hc hs)
    (inRange_boot b) hboot hr

/-- A process opens `rtc` and `.`, and closes the second. -/
def opensAndCloses : List Event := twoOpens ++ [.closeFd 3]

theorem currInTable_sample : (kernel.run (boot sampleBoot) opensAndCloses).isSome ∧
    kernel.Always CurrInTable (boot sampleBoot) opensAndCloses := by
  have hr : (kernel.run (boot sampleBoot) opensAndCloses).isSome := by decide +kernel
  have ha : kernel.Along ClosesInTable (boot sampleBoot) opensAndCloses := by decide +kernel
  exact ⟨hr, (currInTable_iff hr).mpr ha⟩

/-- A name that the small machine has no file for. -/
def missingName : Nat → UInt8 := cstr (lit ['c', 'a', 't'])

/-- With two files open, a process fails to open a third and closes the second. -/
def closesAfterFailure : List Event := twoOpens ++ [.openFd missingName, .closeFd 3]

/-- `currFD` is then -2. -/
theorem close_leaves_table : (kernel.run (boot sampleBoot) closesAfterFailure).isSome ∧
    ¬ kernel.Always CurrInTable (boot sampleBoot) closesAfterFailure := by
  have hv : (kernel.run (boot sampleBoot) closesAfterFailure).map (fun s => s.currFD) =
      some (-2) := by decide +kernel
  obtain ⟨s, hs, hv⟩ := Option.map_eq_some_iff.mp hv
  refine ⟨by simp [hs], fun ha => ?_⟩
  have hfd := (ha.last hs : CurrInTable s).fd
  omega

end Range

end Mp3
