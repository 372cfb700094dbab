import Mp3Os.Forest

/-!
# Base shells keep their PIDs

When the first three ticks start the base shells, these get the PIDs 0, 1 and 2 on terminals 0,
1 and 2 (`Booting`). From then on the root of the chain of each terminal is the process with the
terminal's number (`Rooted`), whatever processes start and end: a base shell that exits is
restarted under its own PID, since the smaller PIDs are the other base shells'.

The invariant also has what every handler must restore: the running process is the one whose
frame is mapped.
-/

namespace Mp3

open Chains

/-- The stack that a process has in the kernel. -/
def stackOf (pid : Int) : Tss := ⟨kernelStack pid, kernelDs⟩

/-- The events of the boot phase: keys, and ticks that start base shells. -/
def Event.Boots : Event → Prop
  | .key .. | .tickLaunch .. => True
  | _ => False

namespace Procs

/-- The boot phase: `pitCount` base shells run. -/
structure Booting (p : Procs) : Prop where
  count : p.pitCount ≤ 3
  cur : p.cur = (p.pitCount + 2) % 3
  inUse : ∀ a, 0 ≤ a → a < 6 → p.inUse a = if a < p.pitCount then 0 else -1
  curr : ∀ t, 0 ≤ t → t < 3 → p.curr t = if t < p.pitCount then t else -1
  parent : ∀ t : Int, 0 ≤ t → t < p.pitCount → p.parent t = -1
  saveTss : ∀ t : Int, 0 ≤ t → t + 1 < p.pitCount → p.saveTss t = stackOf t
  tss : 0 < p.pitCount → p.tss = stackOf (p.pitCount - 1)
  userPde : 0 < p.pitCount → p.userPde = userEntry (p.pitCount - 1)

/-- The base shells run: each terminal's chain has the process with its number as root, and the
running process is mapped. -/
structure Rooted (p : Procs) (l : Fin 3 → List Int) : Prop extends p.Wf l where
  started : 3 ≤ p.pitCount
  root : ∀ t : Fin 3, (l t).getLast? = some (t : Int)
  userPde : p.userPde = userEntry p.running

variable {p : Procs} {l : Fin 3 → List Int} {pid : Int} {x : ExecIn}

/-! ## The boot phase -/

/-- The next base shell gets the next PID. -/
theorem Booting.pid_eq (h : p.Booting) (hc : p.pitCount < 3) {esp ebp : UInt32}
    (hf : (p.deschedule esp ebp).count.LowestFree pid) : pid = p.pitCount := by
  have hfree : p.inUse pid = -1 := hf.free
  rw [h.inUse pid hf.nonneg hf.lt] at hfree
  rcases lt_trichotomy pid p.pitCount with hlt | heq | hgt
  · rw [if_pos hlt] at hfree
    cases hfree
  · exact heq
  · have hused : p.inUse p.pitCount ≠ -1 := hf.lower p.pitCount (by omega) hgt
    rw [h.inUse _ (by omega) (by omega), if_neg (by omega)] at hused
    exact absurd rfl hused

theorem Booting.launch (h : p.Booting) (hc : p.pitCount < 3) (esp ebp : UInt32)
    (hf : (p.deschedule esp ebp).count.LowestFree pid) :
    ((p.deschedule esp ebp).count.launch pid x).Booting := by
  obtain rfl := h.pid_eq hc hf
  have hcur : (p.deschedule esp ebp).count.cur = p.pitCount := by
    show (p.cur + 1) % 3 = _
    rw [h.cur]; omega
  have hrun : (p.deschedule esp ebp).count.running = -1 := by
    rw [Procs.running, hcur]
    show p.curr p.pitCount = -1
    rw [h.curr _ (by omega) (by omega), if_neg (by omega)]
  have hcount : ((p.deschedule esp ebp).count.launch p.pitCount x).pitCount = p.pitCount + 1 :=
    if_pos (by show p.pitCount ≤ 3; omega)
  refine ⟨by omega, ?_, fun a h0 h6 => ?_, fun t h0 h3 => ?_, fun t h0 ht => ?_,
    fun t h0 ht => ?_, fun _ => ?_, fun _ => ?_⟩
  all_goals rw [hcount] at *
  · show (p.deschedule esp ebp).count.cur = _
    rw [hcur]; omega
  · show Function.update p.inUse p.pitCount 0 a = _
    by_cases ha : a = p.pitCount
    · rw [ha, Function.update_self, if_pos (by omega)]
    · rw [Function.update_of_ne ha, h.inUse a h0 h6]
      split_ifs <;> omega
  · show Function.update p.curr (p.deschedule esp ebp).count.cur p.pitCount t = _
    rw [hcur]
    by_cases ht : t = p.pitCount
    · rw [ht, Function.update_self, if_pos (by omega)]
    · rw [Function.update_of_ne ht, h.curr t h0 h3]
      split_ifs <;> omega
  · show Function.update p.parent p.pitCount (p.deschedule esp ebp).count.running t = _
    by_cases hp : t = p.pitCount
    · rw [hp, Function.update_self, hrun]
    · rw [Function.update_of_ne hp]
      exact h.parent t h0 (by omega)
  · show Function.update p.saveTss p.cur p.tss t = _
    have hpc := h.cur
    by_cases hp : t = p.cur
    · rw [hp, Function.update_self, h.tss (by omega)]
      congr 1
      omega
    · rw [Function.update_of_ne hp]
      exact h.saveTss t h0 (by omega)
  · show (⟨kernelStack p.pitCount, kernelDs⟩ : Tss) = _
    simp [stackOf]
  · show userEntry p.pitCount = _
    simp

/-- Three base shells: each is the root of its terminal's chain. -/
theorem Booting.rooted (h : p.Booting) (h3 : p.pitCount = 3) : p.Rooted fun t => [(t : Int)] := by
  have hcurr : ∀ t : Fin 3, p.curr t = t := fun t => by
    rw [h.curr t (by omega) (by omega), if_pos (by omega)]
  have hcur : p.cur = 2 := by rw [h.cur, h3]; rfl
  refine ⟨⟨⟨fun t => ?_, fun t => List.nodup_singleton _, fun i j a hi hj => ?_, fun a => ?_⟩,
    ⟨2, hcur⟩, fun a h0 h6 => ?_⟩, by omega, fun t => rfl, ?_⟩
  · rw [hcurr]
    refine .node (by omega) ?_
    rw [h.parent t (by omega) (by omega)]
    exact .stop
  · simp only [List.mem_singleton] at hi hj
    exact Fin.ext (by omega)
  · constructor
    · rintro ⟨h0, h6, hu⟩
      rw [h.inUse a h0 h6] at hu
      by_cases ha : a < p.pitCount
      · exact ⟨⟨a.toNat, by omega⟩, by simp; omega⟩
      · rw [if_neg ha] at hu
        cases hu
    · rintro ⟨t, ht⟩
      simp only [List.mem_singleton] at ht
      subst ht
      refine ⟨by omega, by omega, ?_⟩
      rw [h.inUse _ (by omega) (by omega), if_pos (by omega)]
  · rw [h.inUse a h0 h6]
    split_ifs <;> simp
  · rw [h.userPde (by omega), Procs.running, hcur, show (2 : Int) = ((2 : Fin 3) : Nat) from rfl,
      hcurr, h3]
    rfl

/-! ## After the boot phase -/

/-- Every terminal has a process. -/
theorem Rooted.curr_ne (h : p.Rooted l) (t : Fin 3) : p.curr t ≠ -1 := by
  intro hn
  have hl := (h.forest.chain t).nil_iff.mpr hn
  have := h.root t
  simp [hl] at this

theorem Rooted.curr_used (h : p.Rooted l) (t : Fin 3) : p.Used (p.curr t) :=
  h.forest.top_used (h.curr_ne t)

theorem Rooted.running_used (h : p.Rooted l) : p.Used p.running := by
  obtain ⟨i, hi⟩ := h.cur
  rw [running, hi]
  exact h.curr_used i

theorem Rooted.tick (h : p.Rooted l) (esp ebp : UInt32) :
    (p.deschedule esp ebp).count.reschedule.Rooted l where
  toWf := (h.toWf.deschedule esp ebp).reschedule
  started := Nat.le_trans h.started (Procs.le_count _)
  root := h.root
  userPde := rfl

/-- A chain keeps its root when a process goes on top. -/
theorem root_push (hroot : ∀ t : Fin 3, (l t).getLast? = some (t : Int)) (i : Fin 3) (a : Int)
    (t : Fin 3) : (Function.update l i (a :: l i) t).getLast? = some (t : Int) := by
  by_cases ht : t = i
  · subst ht
    rw [Function.update_self, List.getLast?_cons, hroot]
    rfl
  · rw [Function.update_of_ne ht]
    exact hroot t

theorem Rooted.enter (h : p.Rooted l) (hf : p.LowestFree pid) :
    ∃ i : Fin 3, p.cur = i ∧ (p.enter pid x).Rooted (Function.update l i (pid :: l i)) := by
  obtain ⟨i, hi, hw⟩ := h.toWf.enter (x := x) hf
  refine ⟨i, hi, hw, h.started, root_push h.root i pid, ?_⟩
  simp [Procs.enter, running]

theorem Rooted.launch (h : p.Rooted l) (hf : p.LowestFree pid) :
    ∃ i : Fin 3, p.cur = i ∧ (p.launch pid x).Rooted (Function.update l i (pid :: l i)) := by
  obtain ⟨i, hi, hr⟩ := h.enter (x := x) hf
  exact ⟨i, hi, ⟨hr.forest, hr.cur, hr.inUse⟩, hr.started, hr.root, hr.userPde⟩

theorem Rooted.reap (h : p.Rooted l) (hp : p.parent p.running ≠ -1) :
    ∃ i : Fin 3, p.cur = i ∧ p.reap.Rooted (Function.update l i (l i).tail) := by
  have hne : p.running ≠ -1 := by have := h.running_used.1; omega
  obtain ⟨i, hi, hw⟩ := h.toWf.reap hne
  refine ⟨i, hi, hw, h.started, fun t => ?_, ?_⟩
  · have hrun : p.curr i = p.running := by rw [running, hi]
    obtain ⟨r, hr, hchain⟩ := (h.forest.chain i).of_ne (h.curr_ne i)
    by_cases ht : t = i
    · subst ht
      -- the parent is on the chain, so the root stays
      obtain ⟨r', rfl, -⟩ := hchain.of_ne (by rwa [hrun])
      have hroot := h.root t
      rw [hr, List.getLast?_cons_cons] at hroot
      rw [Function.update_self, hr]
      exact hroot
    · rw [Function.update_of_ne ht]
      exact h.root t
  · simp [Procs.reap, running]

/-- A process without a parent is the base shell of its terminal. -/
theorem Rooted.root_eq (h : p.Rooted l) (hp : p.parent p.running = -1) {i : Fin 3}
    (hi : p.cur = i) : l i = [(i : Int)] ∧ p.running = i := by
  have hrun : p.curr i = p.running := by rw [running, hi]
  obtain ⟨r, hr, hchain⟩ := (h.forest.chain i).of_ne (h.curr_ne i)
  rw [hrun, hp] at hchain
  have hnil := hchain.nil_iff.mpr rfl
  subst hnil
  have hroot := h.root i
  rw [hr] at hroot
  simp only [List.getLast?_singleton, Option.some.injEq] at hroot
  exact ⟨by rw [hr, hroot], by rw [← hrun, hroot]⟩

/-- The base shells of smaller terminals are in use. -/
theorem Rooted.lower (h : p.Rooted l) {c q : Int} (hc : c < 3) (h0 : 0 ≤ q) (hq : q < c) :
    p.inUse q ≠ -1 := by
  have hmem := List.mem_of_getLast? (h.root ⟨q.toNat, by omega⟩)
  have hu := (h.forest.used_of_mem hmem).2.2
  have hcast : ((q.toNat : Nat) : Int) = q := by omega
  simp only [hcast] at hu
  rw [hu]
  decide

end Procs

section Run

variable {s s' : Kernel} {l : Fin 3 → List Int}

open Procs

/-- The base shell of terminal `i` exits: it starts again under its PID. -/
theorem rooted_restart {u : Kernel} {xs : List ExecIn} (h : s.procs.Rooted l)
    (hroot : s.procs.parent s.procs.running = -1) (hu : SameProcs s u)
    (hr : Kernel.restart s.curr u xs = some s') :
    ∃ (i : Fin 3) (q : Procs) (x : ExecIn), s.procs.cur = i ∧ s.procs.running = i ∧ l i = [(i : Int)] ∧
      AgreesOff i s.procs q ∧ s'.procs = (q.drop i).launch i x ∧ s'.procs.Rooted l := by
  obtain ⟨i, hi⟩ := h.cur
  obtain ⟨hli, hrun⟩ := h.root_eq hroot hi
  have hcurr : s.curr = i := hrun
  obtain ⟨j, hj, hd⟩ := h.toWf.drop hrun hi (hrun ▸ hroot) (by omega)
  obtain rfl : i = j := Fin.ext (by omega)
  have hK : Restarting i (Function.update l i (l i).tail) u.procs := by
    rw [hu.1]
    exact ⟨hi, by omega, by omega, fun q h0 hq => h.lower (by omega) h0 hq, hd⟩
  rw [hcurr] at hr
  obtain ⟨q, x, hq, ha, hf, hs⟩ := restart_same_pid hK hr
  rw [hu.1] at ha
  refine ⟨i, q, x, hi, hrun, hli, ha, hs, ?_⟩
  obtain ⟨k, hk, hw⟩ := hq.wf.launch (x := x) hf
  have hik : i = k := Fin.ext (by
    have : q.cur = k := hk
    rw [ha.cur, hi] at this
    omega)
  subst hik
  have hl : Function.update (Function.update l i (l i).tail) i
      ((i : Int) :: Function.update l i (l i).tail i) = l := by
    rw [Function.update_self, Function.update_idem, hli]
    simp only [List.tail_cons]
    rw [← hli, Function.update_eq_self]
  rw [hl, ← hs] at hw
  refine ⟨hw, ?_, h.root, ?_⟩
  · rw [hs]
    show 3 ≤ q.pitCount
    rw [ha.pitCount]
    exact h.started
  · rw [hs]
    simp [Procs.launch, Procs.enter, running]

/-- **One step keeps the base shells.** -/
theorem rooted_step {e : Event} (h : ∃ l, s.procs.Rooted l) (hs : s.step e = some s') :
    ∃ l, s'.procs.Rooted l := by
  obtain ⟨l, h⟩ := h
  have hcount : ¬ s.pitCount < 3 := by
    have : 3 ≤ s.pitCount := h.started
    omega
  cases procStep hs with
  | quiet _ hp => exact ⟨l, hp ▸ h⟩
  | tick hp => exact ⟨l, hp ▸ h.tick _ _⟩
  | tickTakes hc _ _ => exact absurd hc hcount
  | tickLaunch hc _ _ => exact absurd hc hcount
  | execUser _ hf hp =>
    obtain ⟨_, -, hr⟩ := h.launch hf
    exact ⟨_, hp ▸ hr⟩
  | execFail _ hp => exact ⟨l, hp ▸ h⟩
  | execTakes _ hf hp =>
    obtain ⟨_, -, hr⟩ := h.enter hf
    exact ⟨_, hp ▸ hr⟩
  | reap _ _ hne hp =>
    obtain ⟨_, -, hr⟩ := h.reap hne
    exact ⟨_, hp ▸ hr⟩
  | restart _ _ hroot hu hr =>
    obtain ⟨_, _, _, -, -, -, -, -, hr⟩ := rooted_restart h hroot hu hr
    exact ⟨l, hr⟩

theorem booting_boot (b : BootIn) : (boot b).procs.Booting := by
  have hcount : (boot b).procs.pitCount = 0 := rfl
  refine ⟨by omega, rfl, fun a h0 h6 => ?_, fun t h0 h3 => ?_, fun t h0 ht => ?_,
    fun t h0 ht => ?_, fun hc => by omega, fun hc => by omega⟩
  · rw [hcount, if_neg (by omega)]
    simp [boot, Kernel.procs, Kernel.initPIT, Kernel.initTerminals, Kernel.initPCB, h0, h6]
  · rw [hcount, if_neg (by omega)]
    simp [boot, Kernel.procs, Kernel.initPIT, Kernel.initTerminals, h0, h3]
  · omega
  · omega

theorem booting_step {e : Event} (h : s.procs.Booting) (he : e.Boots) (hs : s.step e = some s') :
    s'.procs.Booting := by
  cases procStep hs with
  | quiet _ hp => exact hp ▸ h
  | tickLaunch hc hf hp => exact hp ▸ h.launch hc _ _ hf
  | tick _ => exact he.elim
  | tickTakes _ _ _ => exact he.elim
  | execUser _ _ _ => exact he.elim
  | execFail _ _ => exact he.elim
  | execTakes _ _ _ => exact he.elim
  | @reap e xs _ hh _ _ _ => cases e <;> first | exact he.elim | cases hh
  | @restart e xs _ _ hh _ _ _ _ => cases e <;> first | exact he.elim | cases hh

/-- After the boot phase the three base shells run. -/
theorem rooted_of_boot {b : BootIn} {es : List Event} (he : ∀ e ∈ es, e.Boots)
    (hr : kernel.run (boot b) es = some s) (h3 : s.pitCount = 3) :
    s.procs.Rooted fun t => [(t : Int)] :=
  (Lts.run_inv (M := kernel) (I := fun s => s.procs.Booting) (G := fun _ e => e.Boots)
    (fun _ _ _ h he hs => booting_step h he hs) (booting_boot b) (Lts.along_of_mem he) hr).rooted h3

end Run

end Mp3
