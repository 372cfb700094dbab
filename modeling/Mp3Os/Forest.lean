import Mp3Os.Procs

/-!
# The process table is a forest of three chains

From the process of each terminal, `parent_pid` leads through PCBs in use to -1, the three
chains share no PCB, and every PCB in use is on one of them (`ForestOk`).

Every operation on the process table keeps this, except the `halt` of a base shell: it writes
`terminals[curr_pcb]` where its own terminal is `terminals[cur_terminal]`. `RestartsWell` says
when that is harmless: the shell's PID is the number of its terminal, and no `execute` of the
loop leaves a PCB behind.

* `Procs.Wf`: the invariant, with the three chains.
* `forest_of_run`: the chains in every state of a run whose base shells restart well.
-/

namespace Mp3

open Chains

/-- The processes are three chains, one per terminal. -/
def ForestOk (s : Kernel) : Prop :=
  ∃ l : Fin 3 → List Int, Forest (fun a => (s.pcbs a).parentPid) (-1)
    (fun a => 0 ≤ a ∧ a < 6 ∧ (s.pcbs a).pcbInUse = 0)
    (fun t : Fin 3 => (s.terminals t).currProcess) l

/-- If the event ends in the `halt` of a base shell: the PID of the shell is the number of its
terminal, and either all smaller PIDs are in use or the first `execute` finds an ELF image. -/
def RestartsWell (s : Kernel) (e : Event) : Prop :=
  ∀ xs, e.halts = some xs → (s.pcbs s.curr).parentPid = -1 →
    s.curr = s.curTerminal ∧
    ((∀ q, 0 ≤ q → q < s.curr → (s.pcbs q).pcbInUse ≠ -1) ∨
      ∃ x rest buf, xs = x :: rest ∧ s.fs.header shellName x.buf = some buf ∧
        Kernel.isElf buf)

/-- The invariant: the chains, a scheduled terminal, and PCBs that are in use or free. -/
structure Procs.Wf (p : Procs) (l : Fin 3 → List Int) : Prop where
  forest : Forest p.parent (-1) p.Used (fun t : Fin 3 => p.curr t) l
  cur : ∃ i : Fin 3, p.cur = i
  inUse : ∀ a, 0 ≤ a → a < 6 → p.inUse a = 0 ∨ p.inUse a = -1

namespace Procs

variable {p : Procs} {l : Fin 3 → List Int} {pid : Int} {x : ExecIn}

/-- The process of terminal `i` after a write to it. -/
theorem curr_update {c v : Int} {i : Fin 3} (h : c = i) (f : Int → Int) :
    (fun t : Fin 3 => Function.update f c v t) = Function.update (fun t : Fin 3 => f t) i v := by
  subst h
  have hinj : Function.Injective fun t : Fin 3 => (t : Int) := by
    intro a b hab
    exact Fin.ext (Int.ofNat.inj hab)
  exact Function.update_comp_eq_of_injective f hinj i v

theorem used_take {p' : Procs} (h : p'.inUse = Function.update p.inUse pid 0) (h0 : 0 ≤ pid)
    (h6 : pid < 6) (a : Int) : p'.Used a ↔ a = pid ∨ p.Used a := by
  by_cases ha : a = pid
  · subst ha; simp [Used, h, h0, h6]
  · simp [Used, h, ha]

theorem used_free {p' : Procs} (h : p'.inUse = Function.update p.inUse pid (-1)) (a : Int) :
    p'.Used a ↔ p.Used a ∧ a ≠ pid := by
  by_cases ha : a = pid
  · subst ha; simp [Used, h]
  · simp [Used, h, ha]

theorem inUse_update {v : Int} (hv : v = 0 ∨ v = -1)
    (h : ∀ a, 0 ≤ a → a < 6 → p.inUse a = 0 ∨ p.inUse a = -1) (a : Int) (h0 : 0 ≤ a)
    (h6 : a < 6) :
    Function.update p.inUse pid v a = 0 ∨ Function.update p.inUse pid v a = -1 := by
  by_cases ha : a = pid
  · subst ha; simpa using hv
  · simpa [ha] using h a h0 h6

theorem LowestFree.not_used (h : p.LowestFree pid) : ¬ p.Used pid := by
  intro hu
  have := h.free
  rw [hu.2.2] at this
  cases this

/-- A new process goes on top of the chain of the scheduled terminal. -/
theorem Wf.enter (h : p.Wf l) (hf : p.LowestFree pid) :
    ∃ i : Fin 3, p.cur = i ∧ (p.enter pid x).Wf (Function.update l i (pid :: l i)) := by
  obtain ⟨i, hi⟩ := h.cur
  refine ⟨i, hi, ?_, h.cur, inUse_update (.inl rfl) h.inUse⟩
  have hcurr : (fun t : Fin 3 => (p.enter pid x).curr t) =
      Function.update (fun t : Fin 3 => p.curr t) i pid := curr_update hi p.curr
  rw [hcurr]
  exact h.forest.push (by have := hf.nonneg; omega) hf.not_used
    (by simp [Procs.enter, running, hi]) (fun b hb => by simp [Procs.enter, hb])
    (used_take rfl hf.nonneg hf.lt)

theorem Wf.launch (h : p.Wf l) (hf : p.LowestFree pid) :
    ∃ i : Fin 3, p.cur = i ∧ (p.launch pid x).Wf (Function.update l i (pid :: l i)) := by
  obtain ⟨i, hi, hw⟩ := h.enter (x := x) hf
  exact ⟨i, hi, hw.forest, hw.cur, hw.inUse⟩

/-- A child leaves the chain of the scheduled terminal to its parent. -/
theorem Wf.reap (h : p.Wf l) (hr : p.running ≠ -1) :
    ∃ i : Fin 3, p.cur = i ∧ p.reap.Wf (Function.update l i (l i).tail) := by
  obtain ⟨i, hi⟩ := h.cur
  refine ⟨i, hi, ?_, h.cur, inUse_update (.inr rfl) h.inUse⟩
  have hrun : p.curr i = p.running := by rw [running, hi]
  have hpop : Forest p.reap.parent (-1) p.reap.Used _ _ := h.forest.pop (i := i)
    (by rwa [hrun]) (fun b hb => by
      rw [hrun] at hb
      simp [Procs.reap, hb])
    (fun b => by rw [hrun]; exact used_free rfl b)
  rw [hrun, ← curr_update hi p.curr] at hpop
  exact hpop

/-- The shell of the scheduled terminal goes, if it has that terminal's number. -/
theorem Wf.drop (h : p.Wf l) {c : Int} (hr : p.running = c) (hc : p.cur = c)
    (hroot : p.parent c = -1) (h0 : 0 ≤ c) :
    ∃ i : Fin 3, p.cur = i ∧ (p.drop c).Wf (Function.update l i (l i).tail) := by
  obtain ⟨i, hi⟩ := h.cur
  have hci : c = i := hc ▸ hi
  have hrun : p.curr i = c := by rw [← hr, running, hi]
  refine ⟨i, hi, ?_, h.cur, inUse_update (.inr rfl) h.inUse⟩
  have hpop : Forest p.parent (-1) (p.drop c).Used _ _ := h.forest.pop (i := i)
    (by rw [hrun]; omega) (fun b _ => rfl) (fun b => by rw [hrun]; exact used_free rfl b)
  rw [hrun, hroot] at hpop
  rw [← curr_update hci p.curr] at hpop
  exact hpop

theorem Wf.deschedule (h : p.Wf l) (esp ebp : UInt32) : (p.deschedule esp ebp).count.Wf l := by
  obtain ⟨i, hi⟩ := h.cur
  refine ⟨h.forest, ⟨⟨(p.cur + 1).toNat % 3, by omega⟩, ?_⟩, h.inUse⟩
  simp only [count, Procs.deschedule]
  omega

theorem Wf.reschedule (h : p.Wf l) : p.reschedule.Wf l := ⟨h.forest, h.cur, h.inUse⟩

/-! ## The loop of `halt` -/

/-- What the loop of `halt` for the shell `c` keeps, if all smaller PIDs are in use: the chains
without `c`. -/
structure Restarting (c : Int) (l : Fin 3 → List Int) (p : Procs) : Prop where
  cur : p.cur = c
  nonneg : 0 ≤ c
  lt : c < 6
  lower : ∀ q, 0 ≤ q → q < c → p.inUse q ≠ -1
  wf : (p.drop c).Wf l

variable {c : Int}

theorem drop_drop : (p.drop c).drop c = p.drop c := by
  simp [Procs.drop]

theorem Restarting.drop (h : Restarting c l p) : Restarting c l (p.drop c) where
  cur := h.cur
  nonneg := h.nonneg
  lt := h.lt
  lower q h0 hlt := by
    have hne : q ≠ c := by omega
    simpa [Procs.drop, hne] using h.lower q h0 hlt
  wf := by rw [drop_drop]; exact h.wf

/-- `getPID` gives the shell its PID back. -/
theorem Restarting.pid_eq (h : Restarting c l p) (hf : (p.drop c).LowestFree pid) : pid = c := by
  rcases lt_trichotomy pid c with hlt | heq | hgt
  · exact absurd hf.free (h.drop.lower pid hf.nonneg hlt)
  · exact heq
  · exact absurd (by simp [Procs.drop]) (hf.lower c h.nonneg hgt)

theorem Restarting.enter (h : Restarting c l p) (hf : (p.drop c).LowestFree pid) :
    Restarting c l ((p.drop c).enter pid x) := by
  obtain rfl := h.pid_eq hf
  have huse : (((p.drop pid).enter pid x).drop pid).inUse = (p.drop pid).inUse := by
    simp [Procs.drop, Procs.enter]
  have hcurr : (((p.drop pid).enter pid x).drop pid).curr = (p.drop pid).curr := by
    simp [Procs.drop, Procs.enter, h.cur]
  refine ⟨h.cur, h.nonneg, h.lt, fun q h0 hlt => ?_, ?_, h.wf.cur, huse ▸ h.wf.inUse⟩
  · have hne : q ≠ pid := by omega
    simpa [Procs.drop, Procs.enter, hne] using h.lower q h0 hlt
  · rw [hcurr]
    refine h.wf.forest.congr (fun a ha => ?_) fun a => by simp [Used, huse]
    have hne : a ≠ pid := fun he => hf.not_used (he ▸ ha)
    simp [Procs.drop, Procs.enter, hne]

/-- The two tables differ in PCB `c` and in the process of terminal `c` only. -/
structure AgreesOff (c : Int) (p q : Procs) : Prop where
  parent : ∀ a, a ≠ c → q.parent a = p.parent a
  frame : ∀ a, a ≠ c → q.frame a = p.frame a
  curr : ∀ t, t ≠ c → q.curr t = p.curr t
  task : q.task = p.task
  saveTss : q.saveTss = p.saveTss
  cur : q.cur = p.cur
  pitCount : q.pitCount = p.pitCount

theorem AgreesOff.drop {q : Procs} (h : AgreesOff c p q) : AgreesOff c p (q.drop c) :=
  ⟨h.parent, h.frame, fun t ht => by simpa [Procs.drop, ht] using h.curr t ht, h.task, h.saveTss,
    h.cur, h.pitCount⟩

theorem AgreesOff.enter {q : Procs} (h : AgreesOff c p q) (hc : q.cur = c) :
    AgreesOff c p (q.enter c x) where
  parent a ha := by simpa [Procs.enter, ha] using h.parent a ha
  frame a ha := by simpa [Procs.enter, ha] using h.frame a ha
  curr t ht := by simpa [Procs.enter, hc, ht] using h.curr t ht
  task := h.task
  saveTss := h.saveTss
  cur := h.cur
  pitCount := h.pitCount

end Procs

section Run

variable {s s' : Kernel} {l : Fin 3 → List Int}

/-- The shell with the number of its terminal restarts under its PID when all smaller PIDs are in
use, and nothing else changes in the table. -/
theorem restart_same_pid {u : Kernel} {c : Int} {xs : List ExecIn}
    (h : Procs.Restarting c l u.procs) (hr : Kernel.restart c u xs = some s') :
    ∃ q x, Procs.Restarting c l q ∧ Procs.AgreesOff c u.procs q ∧ (q.drop c).LowestFree c ∧
      s'.procs = (q.drop c).launch c x := by
  obtain ⟨q, pid, x, ⟨hq, ha⟩, hf, hs⟩ := restart_rule
    (K := fun q => Procs.Restarting c l q ∧ Procs.AgreesOff c u.procs q)
    (fun _ hp => ⟨hp.1.drop, hp.2.drop⟩)
    (fun p pid x hp hf => ⟨hp.1.enter hf, by
      obtain rfl := hp.1.pid_eq hf
      exact hp.2.drop.enter hp.1.cur⟩)
    ⟨h, ⟨fun _ _ => rfl, fun _ _ => rfl, fun _ _ => rfl, rfl, rfl, rfl, rfl⟩⟩ hr
  obtain rfl := hq.pid_eq hf
  exact ⟨q, x, hq, ha, hf, hs⟩

/-- The chains after the `halt` of a base shell that restarts well. -/
theorem wf_restart {u : Kernel} {e : Event} {xs : List ExecIn} (hw : s.procs.Wf l)
    (hg : RestartsWell s e) (he : e.halts = some xs) (hh : s.HasProcess)
    (hroot : s.procs.parent s.procs.running = -1) (hu : SameProcs s u)
    (hr : Kernel.restart s.curr u xs = some s') : ∃ l', s'.procs.Wf l' := by
  obtain ⟨hcur, hfirst⟩ := hg xs he hroot
  have hh : 0 ≤ s.curr := hh
  obtain ⟨i, -, hd⟩ := hw.drop (c := s.curr) rfl hcur.symm hroot hh
  have h6 : s.curr < 6 := by
    obtain ⟨j, hj⟩ := hw.cur
    have : s.procs.cur = s.curr := hcur.symm
    omega
  rcases hfirst with hlow | ⟨x, rest, buf, rfl, hb, helf⟩
  · have hK : Procs.Restarting s.curr (Function.update l i (l i).tail) u.procs := by
      rw [hu.1]
      exact ⟨hcur.symm, hh, h6, hlow, hd⟩
    obtain ⟨q, x, hq, -, hf, hs⟩ := restart_same_pid hK hr
    obtain ⟨_, -, hw'⟩ := hq.wf.launch (x := x) hf
    exact ⟨_, hs ▸ hw'⟩
  · rw [← hu.2] at hb
    obtain ⟨pid, hf, hs⟩ := restart_first hb helf hh h6 hr
    rw [hu.1] at hf hs
    obtain ⟨_, -, hw'⟩ := hd.launch (x := x) hf
    exact ⟨_, hs ▸ hw'⟩

/-- **One step keeps the three chains.** -/
theorem wf_step {e : Event} (hw : ∃ l, s.procs.Wf l) (hg : RestartsWell s e)
    (h : s.step e = some s') : ∃ l, s'.procs.Wf l := by
  obtain ⟨l, hw⟩ := hw
  cases procStep h with
  | quiet _ hp => exact ⟨l, hp ▸ hw⟩
  | tick hp => exact ⟨l, hp ▸ (hw.deschedule _ _).reschedule⟩
  | tickTakes _ hf hp =>
    obtain ⟨_, -, hw'⟩ := (hw.deschedule _ _).enter hf
    exact ⟨_, hp ▸ hw'.reschedule⟩
  | tickLaunch _ hf hp =>
    obtain ⟨_, -, hw'⟩ := (hw.deschedule _ _).launch hf
    exact ⟨_, hp ▸ hw'⟩
  | execUser _ hf hp =>
    obtain ⟨_, -, hw'⟩ := hw.launch hf
    exact ⟨_, hp ▸ hw'⟩
  | execFail _ hp => exact ⟨l, hp ▸ hw⟩
  | execTakes _ hf hp =>
    obtain ⟨_, -, hw'⟩ := hw.enter hf
    exact ⟨_, hp ▸ hw'⟩
  | reap _ hh _ hp =>
    have hh : 0 ≤ s.curr := hh
    obtain ⟨_, -, hw'⟩ := hw.reap (by rw [running_eq]; omega)
    exact ⟨_, hp ▸ hw'⟩
  | restart he hh hroot hu hr => exact wf_restart hw hg he hh hroot hu hr

/-- At boot there is no process. -/
theorem wf_boot (b : BootIn) : (boot b).procs.Wf fun _ => [] := by
  have hcurr : ∀ t : Fin 3, (boot b).procs.curr t = -1 := by
    intro t
    simp only [boot, Kernel.procs, Kernel.initPIT, Kernel.initTerminals]
    rw [if_pos (by omega)]
  have huse : ∀ a, 0 ≤ a → a < 6 → (boot b).procs.inUse a = -1 := by
    intro a h0 h6
    simp [boot, Kernel.procs, Kernel.initPIT, Kernel.initTerminals, Kernel.initPCB, h0, h6]
  refine ⟨⟨fun t => ?_, fun _ => List.nodup_nil, fun _ _ _ ha => absurd ha (by simp), fun a => ?_⟩,
    ⟨2, rfl⟩, fun a h0 h6 => .inr (huse a h0 h6)⟩
  · rw [hcurr]
    exact .stop
  · simp only [List.not_mem_nil, exists_false, iff_false]
    rintro ⟨h0, h6, hu⟩
    rw [huse a h0 h6] at hu
    cases hu

/-- **The process table is a forest in every state of a run whose base shells restart well.** -/
theorem forest_of_run {b : BootIn} {es : List Event}
    (hg : kernel.Along RestartsWell (boot b) es) : kernel.Always ForestOk (boot b) es :=
  Lts.always_of_inv (I := fun s => ∃ l, s.procs.Wf l) (fun _ _ _ hw hg h => wf_step hw hg h)
    (fun _ ⟨l, hw⟩ => ⟨l, hw.forest⟩) ⟨_, wf_boot b⟩ hg

/-- The shell of terminal 2 exits and restarts. -/
def shellExits : List Event := sampleLaunches ++ [.halt 0 [sampleExec]]

theorem forest_shellExits : kernel.Along RestartsWell (boot sampleBoot) shellExits ∧
    (kernel.run (boot sampleBoot) shellExits).isSome ∧
    kernel.Always ForestOk (boot sampleBoot) shellExits := by
  have hg : kernel.Along RestartsWell (boot sampleBoot) shellExits := by
    refine Lts.along_append.mpr ⟨Lts.Along.mono (fun _ _ h xs he => by rw [h] at he; cases he)
      (Lts.along_of_mem (A := fun e => e.halts = none) (by decide)), fun u hu => ?_⟩
    have hv : (kernel.run (boot sampleBoot) sampleLaunches).map (fun s =>
        (s.curr, s.curTerminal, (s.pcbs 0).pcbInUse, (s.pcbs 1).pcbInUse)) =
        some (2, 2, 0, 0) := by decide +kernel
    rw [hu] at hv
    simp only [Option.map_some, Option.some.injEq, Prod.mk.injEq] at hv
    obtain ⟨hcurr, hcur, h0, h1⟩ := hv
    refine ⟨fun xs _ _ => ⟨by rw [hcurr, hcur], .inl fun q hq hlt => ?_⟩, fun _ _ => trivial⟩
    rcases (by omega : q = 0 ∨ q = 1) with rfl | rfl
    · rw [h0]; decide
    · rw [h1]; decide
  exact ⟨hg, by decide +kernel, forest_of_run hg⟩

/-- Terminal 0 runs `ls` before terminal 1 gets its shell, which then has PID 2. -/
def strayShell : List Event :=
  [sampleLaunch, .execUser (cstr (lit ['l', 's'])) sampleExec, sampleLaunch, .halt 0 [sampleExec]]

/-- The shell that restarts is its own parent. -/
theorem strayShell_breaks_chains :
    ∃ s, kernel.run (boot sampleBoot) strayShell = some s ∧ ¬ ForestOk s := by
  have hv : (kernel.run (boot sampleBoot) strayShell).map (fun s =>
      ((s.terminals 1).currProcess, (s.pcbs 2).parentPid)) = some (2, 2) := by decide +kernel
  obtain ⟨s, hs, hv⟩ := Option.map_eq_some_iff.mp hv
  obtain ⟨hcurr, hparent⟩ := Prod.mk.inj hv
  refine ⟨s, hs, fun ⟨l, hl⟩ => ?_⟩
  have hchain := hl.chain 1
  have hnodup := hl.nodup 1
  have htop : (s.terminals ((1 : Fin 3) : Nat)).currProcess = 2 := hcurr
  rw [htop] at hchain
  exact hchain.parent_ne hnodup (by decide) hparent

end Run

end Mp3
