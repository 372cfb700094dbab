import Mp3Os.Acknowledge
import Mp3Os.Descriptors

/-!
# `rtc_read` and the interrupts it waits for (`rtc.c`)

`rtc_read` sets `waiting` and loops until it is 0; `rtc_handler` clears it. System calls leave
interrupts on, so between two looks at the flag there may be ticks, keys and calls of other
processes, which may wait as well: they share the flag. `rtcReads` is the machine with these steps.
`Machine` has `rtc_read` as one event at its start, which is sound (`rtcReads_refine`).

A look ends the loop if the last interrupt of the clock came after the last start of any reader
(`rtc_read_returns`): a reader never returns before an interrupt, and it misses one if another
reader starts between that and its look. Behind a key whose handler faults, whoever starts waits for
ever.
-/

namespace Mp3

/-- The machine, the flag, and the processes that are in the loop. -/
structure RtcReads where
  machine : Machine
  waiting : UInt8
  spins : Int → Bool

/-- The start of an `rtc_read`, its next look at the flag, or another event. -/
inductive RtcEvent where
  | starts (fd : Int) (buf : Nat)
  | looks
  | other (e : MachineEvent)

/-- The event is a call of `rtc_read`. -/
def MachineEvent.readsRtc (k : Kernel) : MachineEvent → Bool
  | kernel (.read fd buf _ _ _) => k.readTarget fd buf = .call (some .rtc)
  | _ => false

/-- The event is an interrupt of the clock. -/
def MachineEvent.isClock : MachineEvent → Bool
  | clock => true
  | _ => false

namespace RtcEvent

def isStart : RtcEvent → Bool
  | starts .. => true
  | _ => false

def faults : RtcEvent → Bool
  | other e => e.faults
  | _ => false

/-- The events of the machine. -/
def events : RtcEvent → List MachineEvent
  | starts fd buf => [.kernel (.read fd buf (fun _ => 0) (fun _ => 0) 0)]
  | looks => []
  | other e => [e]

end RtcEvent

namespace RtcReads

variable (x : RtcReads)

abbrev kernel : Kernel := x.machine.kernel

/-- The scheduled process is in the loop. -/
def Spins : Prop := x.spins x.kernel.curr = true

instance : Decidable x.Spins := inferInstanceAs (Decidable (_ = _))

/-- One step. A process in the loop does nothing else; the fault of a handler ends the process. -/
def step : RtcEvent → Option RtcReads
  | .starts fd buf =>
    if x.kernel.HasProcess ∧ ¬ x.Spins ∧ x.kernel.readTarget fd buf = .call (some .rtc) then
      some { x with waiting := 1, spins := Function.update x.spins x.kernel.curr true }
    else none
  | .looks =>
    if x.Spins then
      some <| if x.waiting = 0 then
        { x with spins := Function.update x.spins x.kernel.curr false } else x
    else none
  | .other e =>
    if (x.Spins → e.line.isSome = true) ∧ e.readsRtc x.kernel = false then
      (x.machine.step e).map fun m => {
        machine := m
        waiting := if e.isClock then 0 else x.waiting
        spins := if e.faults then Function.update x.spins x.kernel.curr false else x.spins }
    else none

/-- At boot. -/
def boot (b : BootIn) (chips : I8259.Pair) : RtcReads := ⟨Machine.boot b chips, 0, fun _ => false⟩

end RtcReads

/-- The machine with the steps of `rtc_read`. -/
def rtcReads : Lts RtcReads RtcEvent := ⟨RtcReads.step⟩

/-- The last interrupt of the clock came after every start. -/
def Released (es : List RtcEvent) : Prop :=
  ∃ es₁ es₂, es = es₁ ++ .other .clock :: es₂ ∧ ∀ e ∈ es₂, e.isStart = false

/-! ## Each step is one of the machine -/

section Refinement

variable {x y : RtcReads} {e : RtcEvent} {es : List RtcEvent} {b : BootIn} {chips : I8259.Pair}

/-- A call of `rtc_read` leaves the machine as it is. -/
theorem step_readsRtc {m : Machine} {fd : Int} {buf : Nat} (hp : m.kernel.HasProcess)
    (ht : m.kernel.readTarget fd buf = .call (some .rtc)) (stack mem : Nat → UInt8) (n : Int) :
    m.step (.kernel (.read fd buf stack mem n)) = some m := by
  have hread : m.kernel.sysRead fd buf stack mem n = some ⟨0, mem, m.kernel⟩ := by
    rw [Kernel.sysRead, ht]
    rfl
  have hstep : m.kernel.step (.read fd buf stack mem n) = some m.kernel := by
    rw [Kernel.step, hread, Option.map_some, Kernel.syscall, if_pos hp]
  have hline : (MachineEvent.kernel (.read fd buf stack mem n)).line = none := rfl
  rw [Machine.step, hline, Machine.take, Option.bind_some, MachineEvent.act, hstep]
  rfl

/-- A step is a run of the machine. -/
theorem step_events (h : x.step e = some y) : machine.run x.machine e.events = some y.machine := by
  cases e with
  | starts fd buf =>
    obtain ⟨⟨hp, -, ht⟩, h⟩ := Option.ite_none_right_eq_some.mp h
    cases h
    exact Lts.run_cons.mpr ⟨_, step_readsRtc hp ht _ _ _, rfl⟩
  | looks =>
    obtain ⟨-, h⟩ := Option.ite_none_right_eq_some.mp h
    cases h
    split <;> rfl
  | other e =>
    obtain ⟨-, h⟩ := Option.ite_none_right_eq_some.mp h
    obtain ⟨m, hm, rfl⟩ := Option.map_eq_some_iff.mp h
    exact Lts.run_cons.mpr ⟨m, hm, rfl⟩

/-- **The machine may take `rtc_read` as one event.** However the looks at the flag are interleaved
with other events, the run without them, and with each call at its start, is one of `Machine`, and it
ends in the same state. -/
theorem rtcReads_refine (hr : rtcReads.run (RtcReads.boot b chips) es = some x) :
    machine.run (Machine.boot b chips) (es.flatMap RtcEvent.events) = some x.machine :=
  Lts.run_flatMap (fun _ _ _ h => step_events h) hr

end Refinement

/-- A process opens the clock, starts to wait, and looks too early. -/
def sampleStart : List RtcEvent :=
  sampleLaunches.map (fun e => .other (.kernel e)) ++
    [.other (.kernel (.openFd rtcName)), .starts 2 0x8000000, .looks]

/-- Then the clock interrupts. -/
def sampleWait : List RtcEvent := sampleStart ++ [.other .clock]

theorem rtcReads_refine_sample : ∃ x,
    rtcReads.run (RtcReads.boot sampleBoot sampleChips) sampleWait = some x ∧
    machine.run (Machine.boot sampleBoot sampleChips) (sampleWait.flatMap RtcEvent.events) =
      some x.machine := by
  have hv : (rtcReads.run (RtcReads.boot sampleBoot sampleChips) sampleWait).isSome := by
    decide +kernel
  obtain ⟨x, hx⟩ := Option.isSome_iff_exists.mp hv
  exact ⟨x, hx, rtcReads_refine hx⟩

/-! ## The flag -/

section Flag

variable {x y : RtcReads} {e : RtcEvent} {es : List RtcEvent}

theorem released_cons : Released (e :: es) ↔
    Released es ∨ e = .other .clock ∧ ∀ e ∈ es, e.isStart = false := by
  constructor
  · rintro ⟨es₁, es₂, he, hs⟩
    cases es₁ with
    | nil =>
      obtain ⟨rfl, rfl⟩ := List.cons_eq_cons.mp he
      exact .inr ⟨rfl, hs⟩
    | cons e' es₁ =>
      obtain ⟨rfl, rfl⟩ := List.cons_eq_cons.mp he
      exact .inl ⟨es₁, es₂, rfl, hs⟩
  · rintro (⟨es₁, es₂, rfl, hs⟩ | ⟨rfl, hs⟩)
    · exact ⟨e :: es₁, es₂, rfl, hs⟩
    · exact ⟨[], es, rfl, hs⟩

/-- What a step does to the flag. -/
theorem waiting_step (h : x.step e = some y) : y.waiting = 0 ↔
    e = .other .clock ∨ x.waiting = 0 ∧ e.isStart = false := by
  cases e with
  | starts fd buf =>
    obtain ⟨-, h⟩ := Option.ite_none_right_eq_some.mp h
    cases h
    simp [RtcEvent.isStart]
  | looks =>
    obtain ⟨-, h⟩ := Option.ite_none_right_eq_some.mp h
    cases h
    split <;> simp [RtcEvent.isStart]
  | other e =>
    obtain ⟨-, h⟩ := Option.ite_none_right_eq_some.mp h
    obtain ⟨m, -, rfl⟩ := Option.map_eq_some_iff.mp h
    cases e <;> simp [MachineEvent.isClock, RtcEvent.isStart]

/-- **The flag is clear** if the clock was last, or if it was clear and nobody has started. -/
theorem waiting_run (hr : rtcReads.run x es = some y) : y.waiting = 0 ↔
    Released es ∨ x.waiting = 0 ∧ ∀ e ∈ es, e.isStart = false := by
  induction es generalizing x with
  | nil =>
    cases hr
    have hnot : ¬ Released [] := fun ⟨es₁, es₂, he, _⟩ => by cases es₁ <;> cases he
    simp [hnot]
  | cons e es ih =>
    obtain ⟨u, hu, hr⟩ := Lts.run_cons.mp hr
    rw [ih hr, waiting_step hu, released_cons, List.forall_mem_cons]
    tauto

theorem spins_step {p : Int} (h : x.step e = some y) (hp : y.spins p = true) :
    x.spins p = true ∨ e.isStart = true := by
  have hupdate : Function.update x.spins x.kernel.curr false p = true → x.spins p = true := by
    intro hu
    by_cases hc : p = x.kernel.curr
    · rw [hc, Function.update_self] at hu
      cases hu
    · rwa [Function.update_of_ne hc] at hu
  cases e with
  | starts fd buf => exact .inr rfl
  | looks =>
    obtain ⟨-, h⟩ := Option.ite_none_right_eq_some.mp h
    cases h
    split at hp
    · exact .inl (hupdate hp)
    · exact .inl hp
  | other e =>
    obtain ⟨-, h⟩ := Option.ite_none_right_eq_some.mp h
    obtain ⟨m, -, rfl⟩ := Option.map_eq_some_iff.mp h
    dsimp only at hp
    split at hp
    · exact .inl (hupdate hp)
    · exact .inl hp

/-- Who is in the loop has started. -/
theorem spins_run {p : Int} (hr : rtcReads.run x es = some y) (hp : y.spins p = true) :
    x.spins p = true ∨ ∃ e ∈ es, e.isStart = true := by
  induction es generalizing x with
  | nil =>
    cases hr
    exact .inl hp
  | cons e es ih =>
    obtain ⟨u, hu, hr⟩ := Lts.run_cons.mp hr
    obtain hs | ⟨e', he', hs⟩ := ih hr
    · exact (spins_step hu hs).imp_right fun he => ⟨e, List.mem_cons_self, he⟩
    · exact .inr ⟨e', List.mem_cons_of_mem e he', hs⟩

/-- A look of a process in the loop. -/
theorem looks_step (hx : x.Spins) (h : x.step .looks = some y) :
    y.spins x.kernel.curr = false ↔ x.waiting = 0 := by
  rw [RtcReads.step, if_pos hx] at h
  cases h
  split
  · rename_i hw
    exact iff_of_true (Function.update_self ..) hw
  · rename_i hw
    exact iff_of_false (fun hf => absurd (hx.symm.trans hf) (by decide)) hw

end Flag

/-! ## Who returns -/

section Returns

variable {x : RtcReads} {es : List RtcEvent} {b : BootIn} {chips : I8259.Pair}

/-- While no handler of a key has faulted the clock can interrupt. -/
theorem clock_step (hr : rtcReads.run (RtcReads.boot b chips) es = some x)
    (hf : ∀ e ∈ es, e.faults = false) : ∃ m, x.machine.step .clock = some m ∧
      m.kernel = x.kernel := by
  have hs := serves_run (Machine.serves_boot b chips) (rtcReads_refine hr)
  have hnone : (es.flatMap RtcEvent.events).any MachineEvent.faults = false := by
    rw [List.any_flatMap, List.any_eq_false]
    intro e he
    have hfe := hf e he
    cases e with
    | starts fd buf => exact Bool.false_ne_true
    | looks => exact Bool.false_ne_true
    | other e => simpa [RtcEvent.events, RtcEvent.faults] using hfe
  rw [hnone, Bool.or_false] at hs
  have hd : x.machine.chips.Delivers ⟨8, MachineEvent.irqRtc_lt⟩ := by
    rw [hs.chips]
    decide
  let u : Machine := { x.machine with chips := x.machine.chips.acknowledge 8 }
  refine ⟨{ u.calls [.eoi 8] with kernel := x.kernel }, ?_, rfl⟩
  rw [Machine.step, MachineEvent.line, Machine.take, if_pos hd]
  rfl

/-- Behind the fault nobody releases a reader that starts. -/
theorem waiting_behind_fault {es₁ es₂ es₃ : List RtcEvent} {e : RtcEvent} {fd : Int} {buf : Nat}
    (hr : rtcReads.run (RtcReads.boot b chips) (es₁ ++ e :: es₂ ++ .starts fd buf :: es₃) = some x)
    (hf : e.faults = true) : x.waiting ≠ 0 := by
  obtain ⟨u, hu, hr'⟩ := Lts.run_append.mp hr
  obtain ⟨v, hv, hr'⟩ := Lts.run_cons.mp hr'
  have hstart : u.step (.starts fd buf) = some v := hv
  have hset : v.waiting ≠ 0 := fun h => by
    obtain h | ⟨-, h⟩ := (waiting_step hstart).mp h
    · cases h
    · cases h
  rw [Ne, waiting_run hr']
  rintro (⟨a, c, rfl, -⟩ | ⟨h, -⟩)
  · cases e with
    | starts fd buf => cases hf
    | looks => cases hf
    | other e =>
      have hm := rtcReads_refine hr
      rw [List.append_assoc, List.cons_append, List.flatMap_append, List.flatMap_cons] at hm
      have hclock : MachineEvent.clock ∈
          (es₂ ++ .starts fd buf :: (a ++ .other .clock :: c)).flatMap RtcEvent.events :=
        List.mem_flatMap.mpr ⟨.other .clock, by simp, List.mem_singleton.mpr rfl⟩
      have hline := lines_behind_fault hm hf _ hclock
      exact absurd hline (by decide)
  · exact hset h

/-- **When `rtc_read` returns.** In every state reached from boot in which the scheduled process is
in the loop: its look ends the loop exactly if the last interrupt of the clock came after every start
of a reader; while no handler of a key has faulted, an interrupt of the clock can come, and then the
look ends it; and after a start behind such a fault no look ends it. -/
theorem rtc_read_returns (hr : rtcReads.run (RtcReads.boot b chips) es = some x) (hx : x.Spins) :
    (∀ y, x.step .looks = some y → (y.spins x.kernel.curr = false ↔ Released es)) ∧
    ((∀ e ∈ es, e.faults = false) → ∃ y, rtcReads.run x [.other .clock, .looks] = some y ∧
      y.spins x.kernel.curr = false) ∧
    ∀ es₁ e es₂ fd buf es₃, es = es₁ ++ e :: es₂ ++ .starts fd buf :: es₃ → e.faults = true →
      x.step .looks = some x := by
  refine ⟨fun y hy => ?_, fun hf => ?_, fun es₁ e es₂ fd buf es₃ he hf => ?_⟩
  · rw [looks_step hx hy, waiting_run hr, or_iff_left]
    rintro ⟨-, hnone⟩
    obtain h | ⟨e, he, hs⟩ := spins_run hr hx
    · cases h
    · exact absurd ((hnone e he).symm.trans hs) (by decide)
  · obtain ⟨m, hm, hk⟩ := clock_step hr hf
    have hclock : x.step (.other .clock) = some { x with machine := m, waiting := 0 } := by
      rw [RtcReads.step, if_pos ⟨fun _ => rfl, rfl⟩, hm]
      rfl
    have hspins : ({ x with machine := m, waiting := 0 } : RtcReads).Spins := by
      rwa [RtcReads.Spins, RtcReads.kernel, hk]
    refine ⟨_, Lts.run_cons.mpr ⟨_, hclock, Lts.run_cons.mpr ⟨_, if_pos hspins, rfl⟩⟩, ?_⟩
    rw [if_pos rfl, RtcReads.kernel, hk]
    exact Function.update_self ..
  · rw [RtcReads.step, if_pos hx, if_neg (waiting_behind_fault (he ▸ hr) hf)]

/-- The look after the interrupt ends the loop. -/
theorem rtc_read_returns_sample : ∃ x,
    rtcReads.run (RtcReads.boot sampleBoot sampleChips) sampleWait = some x ∧ x.Spins ∧
    ∀ y, x.step .looks = some y → y.spins x.kernel.curr = false := by
  have hv : (rtcReads.run (RtcReads.boot sampleBoot sampleChips) sampleWait).map
      (fun x => decide x.Spins) = some true := by decide +kernel
  obtain ⟨x, hx, hspins⟩ := Option.map_eq_some_iff.mp hv
  have hspins : x.Spins := of_decide_eq_true hspins
  have hreleased : Released sampleWait := ⟨_, [], rfl, nofun⟩
  exact ⟨x, hx, hspins, fun y hy => ((rtc_read_returns hx hspins).1 y hy).mpr hreleased⟩

end Returns

end Mp3
