import Mp3Os.Io

/-!
# The exit status

When a child ends, `halt` jumps behind the `execute` of the parent, which returns the global
`ret_val`. `ReturnsStatus` is what this is for: whenever the parent's `execute` gets to its
`return`, it returns the status that the child passed to `halt`, or 256 after an exception.

No function writes `ret_val`, and the status goes through `halt` unused, so every `execute`
returns 0: the status reaches the parent along a run exactly when every child of the run ends
with `halt` and status 0 (`statusReaches_iff`).
-/

namespace Mp3

/-- The status with which the event ends a process: the byte that the process passed to `halt`,
or `KILLED_BY_EXCEPTION`. -/
def Event.exitStatus : Event → Option Int
  | .halt ebx _ => some (ebx.toNat % 256 : Nat)
  | .exception .. | .keyFault .. | .vidmapFault .. => some 256
  | _ => none

/-- The event ends a process with a parent. -/
structure ChildEnds (s : Kernel) (e : Event) (status : Int) (s' : Kernel) : Prop where
  ends : e.exitStatus = some status
  child : (s.pcbs s.curr).parentPid ≠ -1
  step : s.step e = some s'

/-- An event that happens to a process inside the kernel. -/
def Event.Interrupts : Event → Prop
  | .tick .. | .tickLaunch .. | .key .. => True
  | _ => False

/-- Terminal `t` has jumped to `ret_label`. Interrupts are on there, so other terminals may run
before it gets to its `return ret_val`, which then returns `status`. -/
def ReturnsStatus (t status : Int) (s : Kernel) : Prop :=
  ∀ es s', kernel.Along (fun u e => u.curTerminal = t → e.Interrupts) s es →
    kernel.run s es = some s' → s'.curTerminal = t → s'.retVal = status

/-- The status of the child reaches the `execute` of its parent. -/
def StatusReaches (s : Kernel) (e : Event) : Prop :=
  ∀ status s', ChildEnds s e status s' → ReturnsStatus s.curTerminal status s'

/-- If the event ends a child, it is a `halt` with status 0. -/
def EndsWithZero (s : Kernel) (e : Event) : Prop :=
  ∀ status s', ChildEnds s e status s' → status = 0

/-! ## Nothing writes `ret_val` -/

section RetVal

variable {s s' : Kernel} {e : Event}

theorem retVal_of_differs (h : s.DiffersInTerminals s') : s'.retVal = s.retVal := by
  obtain ⟨_, _, _, _, _, _, rfl⟩ := h
  rfl

theorem retVal_switchTerminal (d : Int) : (s.switchTerminal d).retVal = s.retVal :=
  retVal_of_differs (Kernel.switchTerminal_differs d)

theorem retVal_prepareShell : s.prepareShell.retVal = s.retVal :=
  retVal_switchTerminal (s := s) s.pitCount

/-- **No event writes `ret_val`.** -/
theorem retVal_step (h : s.step e = some s') : s'.retVal = s.retVal := by
  have hio : ∀ u : Kernel, u.io.retVal = u.retVal := fun _ => rfl
  rw [← hio s', ← hio s]
  cases ioStep h with
  | same _ hi => rw [hi]
  | prints text _ hi => rw [hi]; rfl
  | tick _ hi => rw [hi]; rfl
  | tickLast _ hi => rw [hi]; exact retVal_switchTerminal (s := s.io.leaveTerminal) 0
  | tickFail _ hi => rw [hi]; exact retVal_prepareShell (s := s.io.leaveTerminal)
  | tickLaunch _ hi => rw [hi]; exact retVal_prepareShell (s := s.io.leaveTerminal)
  | @key c st _ hi =>
    have hk := retVal_of_differs (Kernel.keyboardHandler_differs (s := s.io) c.toNat st)
    rw [hi] at hk
    exact hk
  | @keyFault c st _ u _ text hi hp =>
    have hk := retVal_of_differs (Kernel.keyboardHandler_differs (s := s.io) c.toNat st)
    rw [hi] at hk
    rw [hp]
    exact hk
  | read hi =>
    obtain ⟨-, _, _, -, -, -, -, hr⟩ := terminalRead_eq hi
    rw [hr]
    rfl
  | vidmap vram _ hi => rw [hi]; rfl
  | vidmapFault vram text _ hi => rw [hi]; rfl

end RetVal

/-! ## The status along a run -/

section Run

variable {s s' : Kernel} {e : Event} {status : Int}

/-- The parent runs on the terminal of its child. -/
theorem ChildEnds.curTerminal (h : ChildEnds s e status s') : s'.curTerminal = s.curTerminal := by
  obtain ⟨he, hp, hs⟩ := h
  have hcur : s'.procs.cur = s.procs.cur → s'.curTerminal = s.curTerminal := id
  apply hcur
  cases procStep hs with
  | quiet hq hp => rw [hp]
  | execFail _ hp => rw [hp]
  | reap _ _ _ hp => rw [hp]; rfl
  | restart _ _ hroot _ _ => exact absurd hroot hp
  | _ => cases he

/-- Where `ret_val` is 0, the status reaches the parent exactly if it is 0. -/
theorem statusReaches_step_iff (h : s.retVal = 0) : StatusReaches s e ↔ EndsWithZero s e := by
  constructor
  · intro hr status s' hc
    have hret : s'.retVal = status := hr status s' hc [] s' trivial rfl hc.curTerminal
    rw [← hret, retVal_step hc.step, h]
  · intro hz status s' hc es s'' _ hrun _
    rw [hz status s' hc]
    exact Lts.run_inv' (M := kernel) (I := fun u => u.retVal = 0)
      (fun _ _ _ hu hs => (retVal_step hs).trans hu) ((retVal_step hc.step).trans h) hrun

/-- **The status of every child reaches its parent along a run exactly if every child ends with
`halt` and status 0.** -/
theorem statusReaches_iff (b : BootIn) (es : List Event) :
    kernel.Along StatusReaches (boot b) es ↔ kernel.Along EndsWithZero (boot b) es :=
  Lts.along_congr (I := fun u => u.retVal = 0) (fun _ _ _ hu hs => (retVal_step hs).trans hu)
    (fun _ _ hu => statusReaches_step_iff hu) rfl

/-- The shell of terminal 2 executes `ls`. -/
def lsRuns : List Event := sampleLaunches ++ [.execUser (cstr (lit ['l', 's'])) sampleExec]

/-- `ls` ends with status 1, and the shell gets 0. -/
theorem status_one_is_lost :
    ¬ kernel.Along StatusReaches (boot sampleBoot) (lsRuns ++ [.halt 1 []]) := by
  intro ha
  have hv : (kernel.run (boot sampleBoot) lsRuns).map (fun s =>
      ((s.pcbs s.curr).parentPid, (s.step (.halt 1 [])).map fun s' => s'.retVal)) =
      some (2, some 0) := by decide +kernel
  obtain ⟨u, hu, hv⟩ := Option.map_eq_some_iff.mp hv
  obtain ⟨hparent, hv⟩ := Prod.mk.inj hv
  obtain ⟨s', hs, hret⟩ := Option.map_eq_some_iff.mp hv
  have hc : ChildEnds u (.halt 1 []) 1 s' := ⟨rfl, by rw [hparent]; decide, hs⟩
  have h1 : s'.retVal = 1 := ha.at_event hu 1 s' hc [] s' trivial rfl hc.curTerminal
  rw [hret] at h1
  exact absurd h1 (by decide)

end Run

end Mp3
