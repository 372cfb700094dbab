import Mp3Os.Shells

/-!
# Context switches and the return to the parent

A history records what the machine gave to the kernel: `esp` and `ebp` at the last tick that took
the processor from each terminal, and for each process the `execute` that started it
(`History`). `ContextOk` says that the kernel gives it back:

* the TSS holds the kernel stack of the running process, and the saved TSS of every other
  terminal that of its process;
* `pit_handler` resumes a terminal with the registers of its last tick;
* `halt` of a child returns to the process that executed it, with the registers and the label of
  that `execute`, on that process's kernel stack.

`contextOk_of_run` has it for every state after the boot phase, as long as every `execute`
reaches user mode.
-/

namespace Mp3

/-- An `execute` that started a process: who called it, with which registers and label. -/
structure ExecRecord where
  caller : Int
  esp : UInt32
  ebp : UInt32
  label : UInt32

/-- What the machine gave to the kernel. -/
structure History where
  ticks : Int → UInt32 × UInt32
  execs : Int → Option ExecRecord

/-- The history after an event. -/
def History.note (g : History) (s : Kernel) (e : Event) (s' : Kernel) : History :=
  match e with
  | .tick esp ebp _ | .tickLaunch esp ebp _ =>
    { g with ticks := Function.update g.ticks s.curTerminal (esp, ebp) }
  | .execUser _ x =>
    { g with execs := Function.update g.execs s'.curr (some ⟨s.curr, x.esp, x.ebp, x.retLabel⟩) }
  | _ => g

/-- The kernel with its history. -/
def traced : Lts (Kernel × History) Event := kernel.withGhost History.note

/-- The event is not an `execute` that returns -1. -/
def Event.Succeeds : Event → Prop
  | .execFail .. => False
  | _ => True

/-- The kernel gives back what the history recorded. -/
structure ContextOk (s : Kernel) (g : History) : Prop where
  /-- The TSS of the scheduled terminal. -/
  live : s.tss = stackOf s.curr
  /-- The saved TSS of the other terminals. -/
  saved : ∀ t : Fin 3, (t : Int) ≠ s.curTerminal →
    (s.terminals t).saveTss = stackOf (s.terminals t).currProcess
  /-- What `pit_handler` reloads. -/
  reloads : ∀ esp ebp x s' esp' ebp', s.pitHandler esp ebp x = .resume s' esp' ebp' →
    (esp', ebp') = g.ticks s'.curTerminal
  /-- What `halt` of a process with a parent returns to. -/
  returns : (s.pcbs s.curr).parentPid ≠ -1 → ∀ st xs, ∃ r s',
    g.execs s.curr = some r ∧ s.halt st xs = some (.resume s' r.esp r.ebp r.label) ∧
    s'.curTerminal = s.curTerminal ∧ s'.curr = r.caller ∧ s'.tss = stackOf r.caller

/-- The invariant over the process table and the history. -/
structure Context (p : Procs) (g : History) (l : Fin 3 → List Int) : Prop where
  rooted : p.Rooted l
  tss : p.tss = stackOf p.running
  saveTss : ∀ t : Fin 3, (t : Int) ≠ p.cur → p.saveTss t = stackOf (p.curr t)
  task : ∀ t : Fin 3, (t : Int) ≠ p.cur → p.task (p.curr t) = g.ticks t
  records : ∀ c, p.Used c → p.parent c ≠ -1 →
    g.execs c = some ⟨p.parent c, (p.frame c).esp, (p.frame c).ebp, (p.frame c).returnLabelAdd⟩ ∧
    (p.frame c).esp0 = (stackOf (p.parent c)).esp0 ∧
    (p.frame c).ss0 = (stackOf (p.parent c)).ss0.toUInt32

namespace Context

variable {p : Procs} {g : History} {l : Fin 3 → List Int} {pid : Int} {x : ExecIn}

/-- The process of another terminal is not the running one. -/
theorem curr_ne_running (h : Context p g l) {t : Fin 3} (ht : (t : Int) ≠ p.cur) :
    p.curr t ≠ p.running := by
  obtain ⟨i, hi⟩ := h.rooted.cur
  intro he
  rw [Procs.running, hi] at he
  have := h.rooted.forest.top_inj (h.rooted.curr_ne t) he
  exact ht (by rw [hi, this])

theorem tick (h : Context p g l) (esp ebp : UInt32) :
    Context (p.deschedule esp ebp).count.reschedule
      { g with ticks := Function.update g.ticks p.cur (esp, ebp) } l := by
  obtain ⟨i, hi⟩ := h.rooted.cur
  have hcur : (p.deschedule esp ebp).count.reschedule.cur = (p.cur + 1) % 3 := rfl
  have hsave : ∀ t : Fin 3, Function.update p.saveTss p.cur p.tss t = stackOf (p.curr t) := by
    intro t
    by_cases ht : (t : Int) = p.cur
    · rw [ht, Function.update_self, h.tss, Procs.running]
    · rw [Function.update_of_ne ht, h.saveTss t ht]
  refine ⟨h.rooted.tick esp ebp, ?_, fun t _ => hsave t, fun t ht => ?_, h.records⟩
  · have := hsave ⟨(i + 1) % 3, by omega⟩
    have hc : (p.cur + 1) % 3 = ((i + 1) % 3 : Nat) := by omega
    show Function.update p.saveTss p.cur p.tss ((p.cur + 1) % 3) =
      stackOf (p.curr ((p.cur + 1) % 3))
    rw [hc]
    exact this
  · show Function.update p.task p.running (esp, ebp) (p.curr t) =
      Function.update g.ticks p.cur (esp, ebp) t
    by_cases htc : (t : Int) = p.cur
    · rw [htc, Function.update_self, show p.curr p.cur = p.running from rfl, Function.update_self]
    · rw [Function.update_of_ne htc, Function.update_of_ne (h.curr_ne_running htc)]
      exact h.task t htc

theorem launch (h : Context p g l) (hf : p.LowestFree pid) :
    ∃ l', Context (p.launch pid x)
      { g with execs := Function.update g.execs pid (some ⟨p.running, x.esp, x.ebp, x.retLabel⟩) }
      l' := by
  obtain ⟨i, hi, hr⟩ := h.rooted.launch (x := x) hf
  have hcurr : ∀ t : Fin 3, (t : Int) ≠ p.cur → (p.launch pid x).curr t = p.curr t := fun t ht =>
    Function.update_of_ne ht ..
  refine ⟨_, hr, ?_, fun t ht => ?_, fun t ht => ?_, fun c hu hp => ?_⟩
  · simp [Procs.launch, Procs.enter, Procs.running, stackOf]
  · rw [hcurr t ht]
    exact h.saveTss t ht
  · rw [hcurr t ht]
    exact h.task t ht
  · by_cases hc : c = pid
    · subst hc
      simp [Procs.launch, Procs.enter, h.tss]
    · have hu' : p.Used c := by
        have hor : c = pid ∨ p.Used c := (Procs.used_take (by rfl) hf.nonneg hf.lt c).mp hu
        rcases hor with he | hu
        · exact absurd he hc
        · exact hu
      have hpar : (p.launch pid x).parent c = p.parent c := Function.update_of_ne hc ..
      have hfr : (p.launch pid x).frame c = p.frame c := Function.update_of_ne hc ..
      rw [hpar] at hp ⊢
      rw [hfr]
      simpa only [Function.update_of_ne hc] using h.records c hu' hp

theorem reap (h : Context p g l) (hne : p.parent p.running ≠ -1) :
    ∃ l', Context p.reap g l' := by
  obtain ⟨i, hi, hr⟩ := h.rooted.reap hne
  have hcurr : ∀ t : Fin 3, (t : Int) ≠ p.cur → p.reap.curr t = p.curr t := fun t ht =>
    Function.update_of_ne ht ..
  obtain ⟨-, h0, hs⟩ := h.records _ h.rooted.running_used hne
  refine ⟨_, hr, ?_, fun t ht => ?_, fun t ht => ?_, fun c hu hp => ?_⟩
  · have hrun : p.reap.running = p.parent p.running := by simp [Procs.reap, Procs.running]
    rw [hrun]
    simp only [Procs.reap, h0, hs]
    rfl
  · rw [hcurr t ht]
    exact h.saveTss t ht
  · rw [hcurr t ht]
    exact h.task t ht
  · have hand : p.Used c ∧ c ≠ p.running := (Procs.used_free (by rfl) c).mp hu
    obtain ⟨hu', hc⟩ := hand
    have hpar : p.reap.parent c = p.parent c := Function.update_of_ne hc ..
    have hfr : p.reap.frame c = p.frame c := Function.update_of_ne hc ..
    rw [hpar] at hp ⊢
    rw [hfr]
    exact h.records c hu' hp

/-- A base shell restarts. -/
theorem restart (h : Context p g l) {q p' : Procs} {i : Fin 3} (hi : p.cur = i)
    (ha : Procs.AgreesOff i p q) (hp' : p' = (q.drop i).launch i x) (hr : p'.Rooted l) :
    Context p' g l := by
  have hcurr : ∀ t : Fin 3, (t : Int) ≠ p.cur → p'.curr t = p.curr t := fun t ht => by
    rw [hi] at ht
    rw [hp', ← ha.curr t ht]
    simp [Procs.launch, Procs.enter, Procs.drop, ha.cur, hi, ht]
  have hcur : p'.cur = p.cur := by rw [hp']; exact ha.cur
  refine ⟨hr, ?_, fun t ht => ?_, fun t ht => ?_, fun c hu hp => ?_⟩
  · rw [hp']
    simp [Procs.launch, Procs.enter, Procs.running, stackOf]
  · rw [hcur] at ht
    rw [hcurr t ht, ← h.saveTss t ht, hp', ← ha.saveTss]
    rfl
  · rw [hcur] at ht
    rw [hcurr t ht, ← h.task t ht, hp', ← ha.task]
    rfl
  · have hc : c ≠ i := by
      rintro rfl
      refine hp ?_
      rw [hp']
      simp [Procs.launch, Procs.enter, Procs.drop, Procs.running, ha.cur, hi]
    have hu' : p.Used c := (h.rooted.forest.used_iff c).mpr ((hr.forest.used_iff c).mp hu)
    have hpar : p'.parent c = p.parent c := by
      rw [hp', ← ha.parent c hc]
      exact Function.update_of_ne hc ..
    have hfr : p'.frame c = p.frame c := by
      rw [hp', ← ha.frame c hc]
      exact Function.update_of_ne hc ..
    rw [hpar] at hp ⊢
    rw [hfr]
    exact h.records c hu' hp

end Context

/-! ## Every run -/

section Run

variable {s s' : Kernel} {g g' : History} {e : Event}

/-- The history that an event leaves unless it is a tick or an `execute`. -/
theorem note_halts {xs : List ExecIn} (h : e.halts = some xs) : g.note s e s' = g := by
  cases e <;> first | rfl | cases h

theorem note_quiet (h : e.Quiet) : g.note s e s' = g := by
  cases e <;> first | rfl | exact h.elim

/-- **One step keeps the contexts.** -/
theorem context_step (h : ∃ l, Context s.procs g l) (he : e.Succeeds) (hs : s.step e = some s') :
    ∃ l, Context s'.procs (g.note s e s') l := by
  obtain ⟨l, h⟩ := h
  have hcount : ¬ s.pitCount < 3 := by
    have : 3 ≤ s.pitCount := h.rooted.started
    omega
  cases procStep hs with
  | quiet hq hp => rw [hp, note_quiet hq]; exact ⟨l, h⟩
  | tick hp => rw [hp]; exact ⟨l, h.tick _ _⟩
  | tickTakes hc _ _ => exact absurd hc hcount
  | tickLaunch hc _ _ => exact absurd hc hcount
  | @execUser fname x _ pid _ hf hp =>
    obtain ⟨l', hl⟩ := h.launch (x := x) hf
    have hcurr : s'.curr = pid := by
      rw [← running_eq, hp]
      simp [Procs.launch, Procs.enter, Procs.running]
    rw [hp, History.note, hcurr]
    exact ⟨l', hl⟩
  | execFail _ _ => exact he.elim
  | execTakes _ _ _ => exact he.elim
  | reap hh _ hne hp =>
    rw [hp, note_halts hh]
    exact h.reap hne
  | restart hh _ hroot hu hr =>
    obtain ⟨i, q, x, hi, -, -, ha, hp, hr⟩ := rooted_restart h.rooted hroot hu hr
    rw [note_halts hh]
    exact ⟨l, h.restart hi ha hp hr⟩

/-- The invariant gives back what the history recorded. -/
theorem Context.ok {l : Fin 3 → List Int} (h : Context s.procs g l) : ContextOk s g := by
  refine ⟨h.tss, h.saveTss, fun esp ebp x s' esp' ebp' hr => ?_, fun hne st xs => ?_⟩
  · obtain ⟨hs', ht⟩ := pitHandler_resume h.rooted.started hr
    obtain ⟨j, hj⟩ := (h.rooted.tick esp ebp).cur
    obtain ⟨i, hi⟩ := h.rooted.cur
    have hj' : (s.procs.cur + 1) % 3 = j := hj
    have hne : (j : Int) ≠ s.procs.cur := by omega
    have hcur : s'.curTerminal = j := by
      have : s'.procs.cur = j := by rw [hs']; exact hj
      exact this
    have hrun : s'.procs.running = s.procs.curr j := by
      rw [hs', Procs.running, hj]
      rfl
    rw [ht, hcur, hrun, ← h.task j hne]
    exact Function.update_of_ne (h.curr_ne_running hne) ..
  · obtain ⟨hrec, h0, hss⟩ := h.records _ h.rooted.running_used hne
    obtain ⟨s', hp, hh⟩ := halt_child hne st xs
    refine ⟨_, s', hrec, hh, ?_, ?_, ?_⟩
    · exact congrArg Procs.cur hp
    · rw [← running_eq, hp]
      simp [Procs.reap, Procs.running]
    · have htss : s'.tss = s.procs.reap.tss := congrArg Procs.tss hp
      rw [htss]
      simp only [Procs.reap, h0, hss]
      rfl

/-- The boot phase records the ticks of the base shells. -/
structure Starting (s : Kernel) (g : History) : Prop where
  booting : s.procs.Booting
  task : ∀ t : Int, 0 ≤ t → t + 1 < s.procs.pitCount → s.procs.task t = g.ticks t

theorem starting_boot (b : BootIn) (g : History) : Starting (boot b) g := by
  refine ⟨booting_boot b, fun t h0 ht => ?_⟩
  have : (boot b).procs.pitCount = 0 := rfl
  omega

theorem starting_step (h : Starting s g) (he : e.Boots) (hs : s.step e = some s') :
    Starting s' (g.note s e s') := by
  refine ⟨booting_step h.booting he hs, ?_⟩
  cases procStep hs with
  | quiet hq hp => rw [hp, note_quiet hq]; exact h.task
  | @tickLaunch esp ebp x _ pid hc hf hp =>
    intro t h0 ht
    have hcount : s'.procs.pitCount = s.procs.pitCount + 1 := by
      rw [hp]
      exact if_pos (by show s.pitCount ≤ 3; omega)
    rw [hcount] at ht
    have hcur := h.booting.cur
    have hpc : s.procs.pitCount = s.pitCount := rfl
    have htask : s'.procs.task t = Function.update s.procs.task s.procs.running (esp, ebp) t := by
      rw [hp]; rfl
    show _ = Function.update g.ticks s.procs.cur (esp, ebp) t
    rw [htask]
    by_cases htc : t = s.procs.cur
    · have hrun : s.procs.running = t := by
        rw [Procs.running, ← htc, h.booting.curr t h0 (by omega), if_pos (by omega)]
      rw [hrun, Function.update_self, htc, Function.update_self]
    · have hrun : t ≠ s.procs.running := by
        rw [Procs.running, h.booting.curr _ (by omega) (by omega)]
        split_ifs <;> omega
      rw [Function.update_of_ne hrun, Function.update_of_ne htc]
      exact h.task t h0 (by omega)
  | tick _ => exact he.elim
  | tickTakes _ _ _ => exact he.elim
  | execUser _ _ _ => exact he.elim
  | execFail _ _ => exact he.elim
  | execTakes _ _ _ => exact he.elim
  | @reap e xs _ hh _ _ _ => cases e <;> first | exact he.elim | cases hh
  | @restart e xs _ _ hh _ _ _ _ => cases e <;> first | exact he.elim | cases hh

/-- When the three base shells run, the contexts are in order. -/
theorem Starting.context (h : Starting s g) (h3 : s.pitCount = 3) :
    Context s.procs g fun t => [(t : Int)] := by
  have hp : s.procs.pitCount = 3 := h3
  have hb := h.booting
  have hcur : s.procs.cur = 2 := by rw [hb.cur, hp]; rfl
  have hcurr : ∀ t : Fin 3, s.procs.curr t = t := fun t => by
    rw [hb.curr t (by omega) (by omega), if_pos (by omega)]
  refine ⟨hb.rooted h3, ?_, fun t ht => ?_, fun t ht => ?_, fun c hu hne => ?_⟩
  · rw [hb.tss (by omega), Procs.running, hcur, show (2 : Int) = ((2 : Fin 3) : Nat) from rfl, hcurr,
      hp]
    rfl
  · rw [hcurr, hb.saveTss t (by omega) (by omega)]
  · rw [hcurr, h.task t (by omega) (by omega)]
  · obtain ⟨h0, h6, hu⟩ := hu
    rw [hb.inUse c h0 h6] at hu
    by_cases hc : c < s.procs.pitCount
    · exact absurd (hb.parent c h0 hc) hne
    · rw [if_neg hc] at hu
      cases hu

/-- The shell of terminal 2 runs `ls`, and each terminal has the processor once. -/
def execAndTicks : List Event :=
  [.execUser (cstr (lit ['l', 's'])) ⟨1, 2, 3, fun _ => 0⟩, .tick 4 5 sampleExec,
   .tick 6 7 sampleExec, .tick 8 9 sampleExec]

end Run

end Mp3
