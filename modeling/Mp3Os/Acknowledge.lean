import Mp3Os.Interrupts
import Mp3Os.Lib.I8259
import Mp3Os.Procs

/-!
# Interrupts are acknowledged (`send_eoi` in `i8259.c`)

A line that a controller has delivered stays in service, and blocks the lines after it, until the
kernel ends it with `send_eoi`. `pit_handler` does so before it starts a shell and at its end,
`execute` before it enters user mode (in a system call too, when nothing is in service),
`rtc_handler` for both controllers, and `keyboard_handler` before each `return`.

`Machine` is the kernel with the mask variables and the two controllers, which decide which
interrupt can happen. `picCalls` are the calls of `send_eoi` and `enable_irq` of an event (`beep`
enables the line of the PIT). The controllers are the same after every event, but for one thing
(`serves_run`): a key whose handler faults never ends its line. From then on neither the keyboard
nor the clock interrupts again (`interrupts_served`).
-/

namespace Mp3

/-- `send_eoi`. -/
def Pic.sendEoi (p : Pic) (irqNum : UInt32) : Pic :=
  if 8 ≤ irqNum then (p.outb (0x60 ||| (irqNum - 8)).toUInt8 0xA0).outb (0x60 ||| 2) 0x20
  else p.outb (0x60 ||| irqNum).toUInt8 0x20

/-- A call of `enable_irq` or `send_eoi`. -/
inductive PicCall where
  | enable (irqNum : UInt32)
  | eoi (irqNum : UInt32)

def Pic.make (p : Pic) : PicCall → Pic
  | .enable irqNum => p.enableIrq irqNum
  | .eoi irqNum => p.sendEoi irqNum

/-- The writes reach the controllers in their order, the last one in the list first. -/
def Pic.send (p : Pic) (chips : I8259.Pair) : I8259.Pair :=
  p.writes.foldr (fun w chips => chips.out w.1 w.2) chips

/-! ## The calls of each handler -/

/-- The keys with a note. -/
def noteKeys : List UInt8 :=
  lit ['a', 'w', 's', 'e', 'd', 'f', 't', 'g', 'y', 'h', 'u', 'j', 'k']

namespace Kernel

variable (s : Kernel)

/-- The keys that call `beep`: the small letters with a note, and the codes of released keys that
stop it. The conditions are those of `editKey`. -/
def beeps (scanCode : Nat) : Bool :=
  if s.flags.ctrl ≠ 0 ∧ scanCode = 0x26 then false
  else if scanCode = 0x0E ∧ s.kbd.currIdx ≠ 0 then false
  else if scanCode = 0x1C then false
  else if isSwitch s.flags scanCode then false
  else if s.kbd.numChars < 127 ∧ 0 < scanCode ∧ scanCode < 0x3B then
    s.flags.lshift = 0 ∧ s.flags.rshift = 0 ∧ s.flags.caps = 0 ∧
      charArray.getD scanCode 0 ∈ noteKeys
  else
    (0x9E ≤ scanCode ∧ scanCode ≤ 0xA5) ∨ scanCode = 0x91 ∨ scanCode = 0x92 ∨
      (0x94 ≤ scanCode ∧ scanCode ≤ 0x96)

/-- `execute`. -/
def executePicCalls (fname : Nat → UInt8) (x : ExecIn) : List PicCall :=
  match s.execute fname x with
  | .user _ => [.eoi 0]
  | .fail _ => []

/-- The endless loop of `halt` for a process without a parent. -/
def restartPicCalls (currPcb : Int) : Kernel → List ExecIn → List PicCall
  | _, [] => []
  | s, x :: xs =>
    let s := s.dropped currPcb
    s.executePicCalls shellName x ++
      match s.execute shellName x with
      | .user _ => []
      | .fail s' => restartPicCalls currPcb s' xs

/-- `halt`. -/
def haltPicCalls (xs : List ExecIn) : List PicCall :=
  if (s.pcbs s.curr).parentPid = -1 then restartPicCalls s.curr s xs else []

/-- The handler of an exception. -/
def exceptionPicCalls (vector : Nat) (xs : List ExecIn) : List PicCall :=
  (s.print (exceptionText vector)).haltPicCalls xs

/-- `pit_handler`. -/
def pitPicCalls (esp ebp : UInt32) (x : ExecIn) : List PicCall :=
  let s := s.deschedule esp ebp
  if s.pitCount < 3 then
    [.eoi 0] ++ s.prepareShell.executePicCalls shellName x ++
      match s.prepareShell.execute shellName x with
      | .user _ => []
      | .fail _ => [.eoi 0]
  else [.eoi 0]

/-- `keyboard_handler`. -/
def keyPicCalls (scanCode : Nat) (st : Stack) : List PicCall :=
  match modifierKey s.flags scanCode with
  | some _ => [.eoi 1]
  | none =>
    let s := s.beginKey
    let (calls, r) := if scanCode = 0x48 then ([], s.upKey st)
      else (if s.beeps scanCode then [.enable 0] else [], s.editKey scanCode)
    calls ++
      match r with
      | .ret _ => [.eoi 1]
      | .fault _ => []

/-- The calls of an event. -/
def picCalls : Event → List PicCall
  | .tick esp ebp x | .tickLaunch esp ebp x => s.pitPicCalls esp ebp x
  | .key scanCode st => s.keyPicCalls scanCode.toNat st
  | .keyFault scanCode st xs => s.keyPicCalls scanCode.toNat st ++
    match s.keyboardHandler scanCode.toNat st with
    | .ret _ => []
    | .fault s' => s'.exceptionPicCalls 14 xs
  | .execUser fname x | .execFail fname x => s.executePicCalls fname x
  | .halt _ xs => s.haltPicCalls xs
  | .exception vector xs => s.exceptionPicCalls vector xs
  | .vidmapFault screenStart xs =>
    match s.sysVidmap screenStart with
    | .ret _ => []
    | .fault s' => s'.exceptionPicCalls 14 xs
  | _ => []

end Kernel

/-! ## The machine -/

/-- The kernel, its mask variables and the controllers. -/
structure Machine where
  kernel : Kernel
  pic : Pic
  chips : I8259.Pair

/-- An event of the kernel, or an interrupt of the clock: `rtc_handler` changes nothing else that is
modelled. -/
inductive MachineEvent where
  | kernel (e : Event)
  | clock

namespace MachineEvent

theorem pitIrq_lt : 0 < 16 := by decide

theorem keyboardIrq_lt : 1 < 16 := by decide

theorem irqRtc_lt : 8 < 16 := by decide

/-- The line of an interrupt: `PIT_IRQ`, that of the keyboard, or `IRQ_RTC`. -/
def line : MachineEvent → Option (Fin 16)
  | kernel (.tick ..) | kernel (.tickLaunch ..) => some ⟨0, pitIrq_lt⟩
  | kernel (.key ..) | kernel (.keyFault ..) => some ⟨1, keyboardIrq_lt⟩
  | kernel _ => none
  | clock => some ⟨8, irqRtc_lt⟩

/-- The handler of a key faults. -/
def faults : MachineEvent → Bool
  | kernel (.keyFault ..) => true
  | _ => false

/-- What the event does to the kernel, and its calls. -/
def act (k : Kernel) : MachineEvent → Option (Kernel × List PicCall)
  | kernel e => (k.step e).map fun k' => (k', k.picCalls e)
  | clock => some (k, [.eoi 8])

end MachineEvent

namespace Machine

/-- The processor takes an interrupt, if the controllers deliver it. -/
def take (m : Machine) : Option (Fin 16) → Option Machine
  | none => some m
  | some n => if m.chips.Delivers n then some { m with chips := m.chips.acknowledge n } else none

/-- A call, whose writes reach the controllers. -/
def call (m : Machine) (c : PicCall) : Machine :=
  let p := ({ m.pic with writes := [] } : Pic).make c
  { m with pic := p, chips := p.send m.chips }

def calls (m : Machine) (cs : List PicCall) : Machine := cs.foldl call m

/-- One event. -/
def step (m : Machine) (e : MachineEvent) : Option Machine :=
  (m.take e.line).bind fun m => (e.act m.kernel).map fun (k, cs) => { m.calls cs with kernel := k }

/-- The machine at boot: `i8259_init`, then `init_rtc`, `init_keyboard` and `init_PIT` enable their
lines. The controllers may be in any state before. -/
def boot (b : BootIn) (chips : I8259.Pair) : Machine :=
  Machine.calls ⟨Mp3.boot b, Pic.start, Pic.start.send chips⟩ [.enable 8, .enable 1, .enable 0]

end Machine

/-- The machine as a system. -/
def machine : Lts Machine MachineEvent := ⟨Machine.step⟩

/-- The controllers between events: the lines 0, 1, 2 and 8 are open, with the vectors from 0x20 and
0x28. The keyboard is in service if its handler has faulted. -/
def servedChips (faulted : Bool) : I8259.Pair where
  master := ⟨.ready, 0x20, 0xF8, if faulted then 2 else 0⟩
  slave := ⟨.ready, 0x28, 0xFE, 0⟩

/-! ## What the calls of an event are -/

theorem servedChips_vector :
    ∀ (f : Bool) (n : Fin 16), (servedChips f).vector n = 0x20 + n := by decide

/-- Calls that end the line of the PIT or enable it, as they can be made at any time. -/
def Harmless (cs : List PicCall) : Prop := ∀ c ∈ cs, c = .eoi 0 ∨ c = .enable 0

section Calls

variable {s s' : Kernel} {cs cs' : List PicCall}

theorem Harmless.append (h : Harmless cs) (h' : Harmless cs') : Harmless (cs ++ cs') := fun c hc =>
  (List.mem_append.mp hc).elim (h c) (h' c)

theorem harmless_nil : Harmless [] := nofun

theorem harmless_eoi : Harmless [.eoi 0] := fun _ hc => .inl (List.mem_singleton.mp hc)

theorem harmless_executePicCalls (fname : Nat → UInt8) (x : ExecIn) :
    Harmless (s.executePicCalls fname x) := by
  unfold Kernel.executePicCalls
  split
  · exact harmless_eoi
  · exact harmless_nil

theorem harmless_restartPicCalls (c : Int) (xs : List ExecIn) :
    Harmless (Kernel.restartPicCalls c s xs) := by
  induction xs generalizing s with
  | nil => exact harmless_nil
  | cons x xs ih =>
    simp only [Kernel.restartPicCalls]
    refine (harmless_executePicCalls _ _).append ?_
    split
    · exact harmless_nil
    · exact ih

theorem harmless_haltPicCalls (xs : List ExecIn) : Harmless (s.haltPicCalls xs) := by
  unfold Kernel.haltPicCalls
  split
  · exact harmless_restartPicCalls _ _
  · exact harmless_nil

/-- `pit_handler` ends its line first, unless that is all it does. -/
theorem pitPicCalls_eq (esp ebp : UInt32) (x : ExecIn) :
    ∃ cs, s.pitPicCalls esp ebp x = .eoi 0 :: cs ∧ Harmless cs := by
  unfold Kernel.pitPicCalls
  dsimp only
  split
  · refine ⟨_, rfl, (harmless_executePicCalls _ _).append ?_⟩
    split
    · exact harmless_nil
    · exact harmless_eoi
  · exact ⟨[], rfl, harmless_nil⟩

/-- `keyboard_handler` ends its line last. -/
theorem keyPicCalls_eq (c : Nat) (st : Stack) : ∃ cs, Harmless cs ∧
    s.keyPicCalls c st = cs ++ match s.keyboardHandler c st with
      | .ret _ => [.eoi 1]
      | .fault _ => [] := by
  have hbeep : Harmless (if s.beginKey.beeps c then [.enable 0] else []) := by
    split
    · exact fun _ hc => .inr (List.mem_singleton.mp hc)
    · exact harmless_nil
  unfold Kernel.keyPicCalls Kernel.keyboardHandler
  cases modifierKey s.flags c with
  | some flags => exact ⟨[], harmless_nil, rfl⟩
  | none =>
    by_cases h48 : c = 0x48
    · simp only [h48, ↓reduceIte]
      refine ⟨[], harmless_nil, ?_⟩
      cases s.beginKey.upKey st <;> rfl
    · simp only [h48, ↓reduceIte]
      refine ⟨_, hbeep, ?_⟩
      cases s.beginKey.editKey c <;> rfl

end Calls

/-! ## The controllers after an event -/

namespace Machine

/-- The state of the controllers and the mask variables between events. -/
structure Serves (faulted : Bool) (m : Machine) : Prop where
  chips : m.chips = servedChips faulted
  master : m.pic.masterMask = 0xF8
  slave : m.pic.slaveMask = 0xFE

variable {m m' : Machine} {f : Bool} {n : Fin 16} {cs : List PicCall}

/-- `send_eoi` ends its line. -/
theorem send_eoi (p : Pic) (chips : I8259.Pair) (n : Fin 16) :
    (({ p with writes := [] } : Pic).sendEoi (UInt32.ofNat n)).send chips = chips.finish n := by
  have hline : ∀ n : Fin 16, n < 8 →
      (0x60 ||| UInt32.ofNat n).toUInt8 = 0x60 ||| UInt8.ofNat (I8259.Pair.line n) := by decide
  have hslave : ∀ n : Fin 16, ¬ n < 8 →
      (0x60 ||| (UInt32.ofNat n - 8)).toUInt8 = 0x60 ||| UInt8.ofNat (I8259.Pair.line n) := by decide
  unfold Pic.sendEoi I8259.Pair.finish
  by_cases hn : n < 8
  · rw [if_neg (mt (line_le n).mp (Nat.not_le.mpr hn)), if_pos hn, hline n hn,
      ← I8259.Chip.command_eoi]
    rfl
  · rw [if_pos ((line_le n).mpr (Nat.not_lt.mp hn)), if_neg hn, hslave n hn,
      ← I8259.Chip.command_eoi, ← I8259.Chip.command_eoi]
    rfl

theorem Serves.harmless (h : m.Serves f) (hc : Harmless cs) : (m.calls cs).Serves f := by
  have heoi : ∀ f, ((⟨0xF8, 0xFE, []⟩ : Pic).make (.eoi 0)).send (servedChips f) = servedChips f := by
    decide
  have henable : ∀ f, ((⟨0xF8, 0xFE, []⟩ : Pic).make (.enable 0)).send (servedChips f) =
      servedChips f := by decide
  have hmask : ((⟨0xF8, 0xFE, []⟩ : Pic).make (.enable 0)).masterMask = 0xF8 := by decide
  induction cs generalizing m with
  | nil => exact h
  | cons c cs ih =>
    refine ih ?_ fun c' hc' => hc c' (List.mem_cons_of_mem _ hc')
    obtain ⟨k, ⟨master, slave, writes⟩, chips⟩ := m
    obtain ⟨rfl, rfl, rfl⟩ := h
    rcases hc c (List.mem_cons_self ..) with rfl | rfl
    · exact ⟨heoi f, rfl, rfl⟩
    · exact ⟨henable f, hmask, rfl⟩

theorem masks_eoi (m : Machine) (irqNum : UInt32) :
    (m.call (.eoi irqNum)).pic.masterMask = m.pic.masterMask ∧
      (m.call (.eoi irqNum)).pic.slaveMask = m.pic.slaveMask := by
  unfold Machine.call Pic.make Pic.sendEoi
  dsimp only
  split <;> exact ⟨rfl, rfl⟩

/-- A line that is delivered, and ended first. -/
theorem Serves.ended (h : m.Serves f) (hd : m.chips.Delivers n) :
    (Machine.call { m with chips := m.chips.acknowledge n } (.eoi (UInt32.ofNat n))).Serves f := by
  obtain ⟨hm, hs⟩ := masks_eoi { m with chips := m.chips.acknowledge n } (UInt32.ofNat n)
  refine ⟨?_, hm.trans h.master, hs.trans h.slave⟩
  exact (send_eoi ..).trans ((I8259.Pair.finish_acknowledge hd).trans h.chips)

/-- The keyboard interrupts only if its handler has not faulted, and then it is in service. -/
theorem Serves.key (h : m.Serves f) (hd : m.chips.Delivers 1) :
    f = false ∧ Serves true { m with chips := m.chips.acknowledge 1 } := by
  rw [h.chips] at hd
  cases f with
  | false => exact ⟨rfl, by rw [h.chips]; rfl, h.master, h.slave⟩
  | true => exact absurd hd (by decide)

theorem Serves.eoi_one (h : m.Serves true) : (m.call (.eoi 1)).Serves false := by
  obtain ⟨hm, hs⟩ := masks_eoi m 1
  refine ⟨(send_eoi m.pic m.chips 1).trans ?_, hm.trans h.master, hs.trans h.slave⟩
  rw [h.chips]
  decide

theorem take_eq {l : Option (Fin 16)} (h : m.take l = some m') : m'.kernel = m.kernel ∧
    (l = none ∧ m' = m ∨
      ∃ n, l = some n ∧ m.chips.Delivers n ∧ m' = { m with chips := m.chips.acknowledge n }) := by
  unfold Machine.take at h
  split at h
  · cases h
    exact ⟨rfl, .inl ⟨rfl, rfl⟩⟩
  · split at h
    · rename_i hd
      cases h
      exact ⟨rfl, .inr ⟨_, rfl, hd, rfl⟩⟩
    · cases h

/-- The events without an interrupt make only calls that can be made at any time. -/
theorem harmless_picCalls {k : Kernel} {e : Event} (h : (MachineEvent.kernel e).line = none) :
    Harmless (k.picCalls e) := by
  cases e with
  | tick esp ebp x => cases h
  | tickLaunch esp ebp x => cases h
  | key c st => cases h
  | keyFault c st xs => cases h
  | execUser fname x => exact harmless_executePicCalls _ _
  | execFail fname x => exact harmless_executePicCalls _ _
  | halt ebx xs => exact harmless_haltPicCalls _
  | exception v xs => exact harmless_haltPicCalls _
  | vidmapFault a xs =>
    simp only [Kernel.picCalls]
    split
    · exact harmless_nil
    · exact harmless_haltPicCalls _
  | _ => exact harmless_nil

/-- **One event.** The keyboard is in service afterwards if its handler has faulted. -/
theorem Serves.step {e : MachineEvent} (h : m.Serves f) (hs : m.step e = some m') :
    m'.Serves (f || e.faults) := by
  obtain ⟨u, hu, hs⟩ := Option.bind_eq_some_iff.mp hs
  obtain ⟨⟨k, cs⟩, ha, rfl⟩ := Option.map_eq_some_iff.mp hs
  obtain ⟨hk, hu⟩ := take_eq hu
  have hset : ∀ {g}, (u.calls cs).Serves g → Serves g { u.calls cs with kernel := k } := fun hg =>
    ⟨hg.chips, hg.master, hg.slave⟩
  refine hset ?_
  cases e with
  | clock =>
    obtain ⟨hn, -⟩ | ⟨n, hn, hd, rfl⟩ := hu
    · cases hn
    · cases hn
      cases ha
      have hno : MachineEvent.clock.faults = false := rfl
      rw [hno, Bool.or_false]
      exact h.ended hd
  | kernel e =>
    obtain ⟨k', hk', ha⟩ := Option.map_eq_some_iff.mp ha
    cases ha
    rw [hk] at hk' ⊢
    obtain ⟨hn, rfl⟩ | ⟨n, hn, hd, rfl⟩ := hu
    · -- no interrupt: a line that is in service stays so
      have hno : (MachineEvent.kernel e).faults = false := by
        cases e <;> first | rfl | cases hn
      rw [hno, Bool.or_false]
      exact h.harmless (harmless_picCalls hn)
    · have htick : ∀ {esp ebp x}, n = 0 →
          (Machine.calls { m with chips := m.chips.acknowledge n } (m.kernel.pitPicCalls esp ebp x)).Serves
            (f || false) := by
        rintro esp ebp x rfl
        obtain ⟨cs, hcs, hh⟩ := pitPicCalls_eq (s := m.kernel) esp ebp x
        rw [hcs, Bool.or_false]
        exact (h.ended hd).harmless hh
      have hkey : ∀ (c : UInt8) (st : Stack), n = 1 → ∃ cs, f = false ∧
          (Machine.calls { m with chips := m.chips.acknowledge n } cs).Serves true ∧
          m.kernel.keyPicCalls c.toNat st = cs ++ match m.kernel.keyboardHandler c.toNat st with
            | .ret _ => [.eoi 1]
            | .fault _ => [] := by
        rintro c st rfl
        obtain ⟨cs, hh, hcs⟩ := keyPicCalls_eq (s := m.kernel) c.toNat st
        obtain ⟨hf, hkb⟩ := h.key hd
        exact ⟨cs, hf, hkb.harmless hh, hcs⟩
      cases e with
      | tick esp ebp x =>
        cases hn
        exact htick rfl
      | tickLaunch esp ebp x =>
        cases hn
        exact htick rfl
      | key c st =>
        cases hn
        obtain ⟨cs, rfl, hkb, hcs⟩ := hkey c st rfl
        simp only [Kernel.step] at hk'
        split at hk' <;> cases hk'
        rename_i hr
        rw [hr] at hcs
        rw [Kernel.picCalls, hcs, Machine.calls, List.foldl_append]
        exact hkb.eoi_one
      | keyFault c st xs =>
        cases hn
        obtain ⟨cs, rfl, hkb, hcs⟩ := hkey c st rfl
        simp only [Kernel.step] at hk'
        split at hk'
        · cases hk'
        · rename_i hr
          rw [hr, List.append_nil] at hcs
          simp only [Kernel.picCalls, hr, hcs]
          rw [Machine.calls, List.foldl_append]
          exact hkb.harmless (harmless_haltPicCalls _)
      | _ => cases hn

/-- `i8259_init` sets both controllers up, whatever they did before. -/
theorem send_start (chips : I8259.Pair) :
    Pic.start.send chips = ⟨⟨.ready, 0x20, 0xFB, 0⟩, ⟨.ready, 0x28, 0xFF, 0⟩⟩ := by
  obtain ⟨master, slave⟩ := chips
  have hmaster := I8259.Chip.initialize (master.data 0xFB) 0x20 0x04 0xFB
  have hslave := I8259.Chip.initialize (slave.data 0xFF) 0x28 0x02 0xFF
  calc Pic.start.send ⟨master, slave⟩
      = ⟨(((((master.data 0xFB).command 0x11).data 0x20).data 0x04).data 0x01).data 0xFB,
          (((((slave.data 0xFF).command 0x11).data 0x28).data 0x02).data 0x01).data 0xFF⟩ := rfl
    _ = _ := by
      rw [hmaster, hslave]
      rfl

theorem serves_boot (b : BootIn) (chips : I8259.Pair) : (Machine.boot b chips).Serves false := by
  have heq : ∀ {p q : Pic}, p.masterMask = q.masterMask → p.slaveMask = q.slaveMask →
      p.writes = q.writes → p = q := by
    rintro ⟨_, _, _⟩ ⟨_, _, _⟩ rfl rfl rfl
    rfl
  have h8 : (⟨0xFB, 0xFF, []⟩ : Pic).make (.enable 8) = ⟨0xFB, 0xFE, [(0xFE, 0xA1)]⟩ :=
    heq (by decide) (by decide) (by decide)
  have h1 : (⟨0xFB, 0xFE, []⟩ : Pic).make (.enable 1) = ⟨0xF9, 0xFE, [(0xF9, 0x21)]⟩ :=
    heq (by decide) (by decide) (by decide)
  have h0 : (⟨0xF9, 0xFE, []⟩ : Pic).make (.enable 0) = ⟨0xF8, 0xFE, [(0xF8, 0x21)]⟩ :=
    heq (by decide) (by decide) (by decide)
  have hstart : ({ Pic.start with writes := [] } : Pic) = ⟨0xFB, 0xFF, []⟩ := rfl
  simp only [Machine.boot, Machine.calls, List.foldl_cons, List.foldl_nil, Machine.call, send_start,
    hstart, h8, h1, h0]
  exact ⟨rfl, rfl, rfl⟩

end Machine

/-! ## Every run -/

section Run

variable {m m' : Machine} {f : Bool} {b : BootIn} {chips : I8259.Pair} {es : List MachineEvent}

/-- **The controllers after a run** are as at boot, but for a keyboard handler that has faulted. -/
theorem serves_run (h : m.Serves f) (hr : machine.run m es = some m') :
    m'.Serves (f || es.any MachineEvent.faults) := by
  induction es generalizing m f with
  | nil =>
    cases hr
    rwa [List.any_nil, Bool.or_false]
  | cons e es ih =>
    obtain ⟨u, hu, hr⟩ := Lts.run_cons.mp hr
    rw [List.any_cons, ← Bool.or_assoc]
    exact ih (h.step hu) hr

/-- With the keyboard in service only the PIT interrupts. -/
theorem lines_after_fault (h : m.Serves true) (hr : machine.run m es = some m') :
    ∀ e ∈ es, e.line = none ∨ e.line = some 0 := by
  induction es generalizing m with
  | nil => exact nofun
  | cons e es ih =>
    obtain ⟨u, hu, hr⟩ := Lts.run_cons.mp hr
    refine List.forall_mem_cons.mpr ⟨?_, ih (h.step hu) hr⟩
    obtain ⟨v, hv, -⟩ := Option.bind_eq_some_iff.mp hu
    obtain ⟨-, ⟨hn, -⟩ | ⟨n, hn, hd, -⟩⟩ := Machine.take_eq hv
    · exact .inl hn
    · have honly : ∀ n, (servedChips true).Delivers n → n = 0 := by decide
      rw [h.chips] at hd
      exact .inr (hn.trans (congrArg some (honly n hd)))

/-- Behind a fault of the handler of a key only the PIT interrupts. -/
theorem lines_behind_fault {es₁ es₂ : List MachineEvent} {e : MachineEvent}
    (hr : machine.run (Machine.boot b chips) (es₁ ++ e :: es₂) = some m) (hf : e.faults = true) :
    ∀ e' ∈ es₂, e'.line = none ∨ e'.line = some 0 := by
  obtain ⟨u, hu, hr⟩ := Lts.run_append.mp hr
  obtain ⟨v, hv, hr⟩ := Lts.run_cons.mp hr
  have hfault := (serves_run (Machine.serves_boot b chips) hu).step hv
  rw [hf, Bool.or_true] at hfault
  exact lines_after_fault hfault hr

/-- **Interrupts are served.** After every run from boot, whatever state the controllers were in
before it: a request on a line is delivered if it is the line of the PIT, or that of the keyboard or
the clock and no handler of a key has faulted; line `n` has the vector `0x20 + n`. Behind a key whose
handler faults, the run has no interrupt but the ticks of the PIT. -/
theorem interrupts_served (hr : machine.run (Machine.boot b chips) es = some m) :
    (∀ n : Fin 16, m.chips.Delivers n ↔
      n = 0 ∨ (n = 1 ∨ n = 8) ∧ ∀ e ∈ es, e.faults = false) ∧
    (∀ n : Fin 16, m.chips.vector n = 0x20 + n) ∧
    ∀ es₁ e es₂, es = es₁ ++ e :: es₂ → e.faults = true →
      ∀ e' ∈ es₂, e'.line = none ∨ e'.line = some 0 := by
  have hs := serves_run (Machine.serves_boot b chips) hr
  rw [Bool.false_or] at hs
  refine ⟨fun n => ?_, fun n => ?_, fun es₁ e es₂ he hf => lines_behind_fault (he ▸ hr) hf⟩
  · have hlines : ∀ f, ∀ n : Fin 16,
        (servedChips f).Delivers n ↔ n = 0 ∨ (n = 1 ∨ n = 8) ∧ f = false := by decide
    rw [hs.chips, hlines, List.any_eq_false]
    simp only [Bool.not_eq_true]
  · rw [hs.chips, servedChips_vector]

/-- A prompt on the second row, a letter, Ctrl+L, and Up, whose handler faults. -/
def keyFaults : List MachineEvent :=
  sampleLaunches.map .kernel ++
    [.kernel (.write 1 0x8000000 (cstr (lit ['\n', '>'])) 2)] ++
    (sampleKeys [0x1E, 0x1D, 0x26, 0x9D]).map .kernel ++
    [.clock, .kernel (.keyFault 0x48 ⟨fun _ => 0, fun _ => none, fun _ => 0⟩ [sampleExec, sampleExec]),
      .kernel (.tick 0 0 sampleExec)]

/-- The controllers of the small machine before the boot. -/
def sampleChips : I8259.Pair := ⟨⟨.icw4, 0x08, 0xB8, 1⟩, ⟨.ready, 0x70, 0x8F, 0⟩⟩

theorem interrupts_served_sample : ∃ m,
    machine.run (Machine.boot sampleBoot sampleChips) keyFaults = some m ∧
    m.chips.Delivers 0 ∧ ¬ m.chips.Delivers 1 ∧ ¬ m.chips.Delivers 8 := by
  have hv : (machine.run (Machine.boot sampleBoot sampleChips) keyFaults).isSome := by
    decide +kernel
  obtain ⟨m, hm⟩ := Option.isSome_iff_exists.mp hv
  have hfault : ¬ ∀ e ∈ keyFaults, e.faults = false := by decide
  obtain ⟨hlines, -, -⟩ := interrupts_served hm
  refine ⟨m, hm, (hlines 0).mpr (.inl rfl), fun h => ?_, fun h => ?_⟩
  · rcases (hlines 1).mp h with h | ⟨-, h⟩
    · exact absurd h (by decide)
    · exact hfault h
  · rcases (hlines 8).mp h with h | ⟨-, h⟩
    · exact absurd h (by decide)
    · exact hfault h

end Run

end Mp3
