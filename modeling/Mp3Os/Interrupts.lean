import Mp3Os.Lib.Lts

/-!
# The interrupt masks (`i8259.c`)

Each of the two controllers has a mask variable and a data port. `enable_irq` clears the bit of a
line and `disable_irq` sets it; the lines from 8 on are on the slave.

`disable_irq` ORs `1 << irq_num` into both masks, which are bytes. So for a line of the master it
also sets the bit of the line 8 further on, in the variable and not at the port, and for a line of
the slave it sets no bit at all. Both are harmless exactly if the line of the slave with that bit
(`onSlave`) is masked already (`irqMasks_iff`).
-/

namespace Mp3

/-- The mask variables, and the writes to the ports, the last one first. -/
structure Pic where
  masterMask : UInt8
  slaveMask : UInt8
  writes : List (UInt8 × Nat)

namespace Pic

variable (p : Pic)

/-- `outb(data, port)`. -/
def outb (data : UInt8) (port : Nat) : Pic := { p with writes := (data, port) :: p.writes }

/-- `i8259_init`. -/
def i8259Init : Pic :=
  let p := (p.outb p.masterMask 0x21).outb p.slaveMask 0xA1
  let p := (((p.outb 0x11 0x20).outb 0x20 0x21).outb 0x04 0x21).outb 0x01 0x21
  let p := (((p.outb 0x11 0xA0).outb 0x28 0xA1).outb 0x02 0xA1).outb 0x01 0xA1
  (p.outb p.masterMask 0x21).outb p.slaveMask 0xA1

/-- `enable_irq`. The masks are bytes: a 32-bit result is cut. -/
def enableIrq (irqNum : UInt32) : Pic :=
  let mask := ~~~((1 : UInt32) <<< irqNum)
  if 8 ≤ irqNum then
    let unmask := ~~~((1 : UInt32) <<< (irqNum - 8))
    let p := { p with slaveMask := (p.slaveMask.toUInt32 &&& unmask).toUInt8 }
    p.outb p.slaveMask 0xA1
  else
    let p := { p with masterMask := (p.masterMask.toUInt32 &&& mask).toUInt8 }
    p.outb p.masterMask 0x21

/-- `disable_irq`. -/
def disableIrq (irqNum : UInt32) : Pic :=
  let mask := (1 : UInt32) <<< irqNum
  let p := { p with
    masterMask := (p.masterMask.toUInt32 ||| mask).toUInt8
    slaveMask := (p.slaveMask.toUInt32 ||| mask).toUInt8 }
  if irqNum &&& 8 ≠ 0 then p.outb p.slaveMask 0xA1 else p.outb p.masterMask 0x21

/-- The value last written to a port. -/
def lastWritten (port : Nat) : Option UInt8 := (p.writes.find? (·.2 = port)).map (·.1)

end Pic

/-- Bit `i` of a mask. -/
def bit (mask : UInt8) (i : Nat) : Bool := mask.toBitVec.getLsbD i

/-- The bit of a line: set when the line is masked. -/
def Pic.masked (p : Pic) (line : Fin 16) : Bool :=
  if line.val < 8 then bit p.masterMask line.val else bit p.slaveMask (line.val - 8)

/-! ## Calls and their history -/

/-- A call with a line number from 0 to 15. -/
inductive IrqCall where
  | enable (line : Fin 16)
  | disable (line : Fin 16)
  deriving DecidableEq

/-- The line that a call names. -/
def IrqCall.line : IrqCall → Fin 16
  | .enable n => n
  | .disable n => n

def Pic.call (p : Pic) : IrqCall → Pic
  | .enable n => p.enableIrq (UInt32.ofNat n.val)
  | .disable n => p.disableIrq (UInt32.ofNat n.val)

/-- The masks at the start of the kernel, written to the ports. -/
def Pic.start : Pic := (⟨0xFB, 0xFF, []⟩ : Pic).i8259Init

/-- The controllers with the calls so far, the last one first. -/
def irqCalls : Lts (Pic × List IrqCall) IrqCall :=
  (⟨fun p c => some (p.call c)⟩ : Lts Pic IrqCall).withGhost fun history _ c _ => c :: history

/-- The last call that names the line. -/
def lastCall (history : List IrqCall) (line : Fin 16) : Option IrqCall :=
  history.find? (·.line = line)

/-- The last call that names the line enabled it, or there is none and it was open at the start. -/
def LineOpen (history : List IrqCall) (line : Fin 16) : Prop :=
  lastCall history line = some (.enable line) ∨
    lastCall history line = none ∧ Pic.start.masked line = false

instance (history : List IrqCall) (line : Fin 16) : Decidable (LineOpen history line) :=
  inferInstanceAs (Decidable (_ ∨ _ ∧ _))

/-- The masks tell which lines are open, and the ports have the masks. -/
structure MasksTrack (s : Pic × List IrqCall) : Prop where
  lines : ∀ line, s.1.masked line = false ↔ LineOpen s.2 line
  master : s.1.lastWritten 0x21 = some s.1.masterMask
  slave : s.1.lastWritten 0xA1 = some s.1.slaveMask

/-- The call changes the bit of its own line only. -/
def OwnBitOnly (p : Pic) (c : IrqCall) : Prop :=
  ∀ line, line ≠ c.line → (p.call c).masked line = p.masked line

/-- The line of the slave whose bit `disable_irq` computes for `line`. -/
def onSlave (line : Fin 16) : Fin 16 := ⟨8 + line.val % 8, by omega⟩

/-- A `disable_irq` is made while the line of the slave with its bit has not been enabled. -/
def SlaveClosed (history : List IrqCall) (c : IrqCall) : Prop :=
  ∀ n, c = .disable n → lastCall history (onSlave n) ≠ some (.enable (onSlave n))

/-! ## What a call does to the bits -/

section Bits

variable {mask mask' : UInt8} {n : UInt32} {i : Nat}

theorem bit_ext (h : ∀ i < 8, bit mask i = bit mask' i) : mask = mask' := by
  apply UInt8.eq_of_toBitVec_eq
  apply BitVec.eq_of_getLsbD_eq
  exact h

/-- The one bit of `1 << n`. -/
theorem getLsbD_one_shl (hn : n.toNat < 32) (hi : i < 32) :
    ((1 : UInt32) <<< n).toBitVec.getLsbD i = decide (i = n.toNat) := by
  rw [UInt32.toBitVec_shiftLeft]
  rw [Bool.eq_iff_iff]
  simp [hi, Nat.mod_eq_of_lt hn]
  omega

theorem bit_clear (mask : UInt8) (hn : n.toNat < 32) (hi : i < 8) :
    bit (mask.toUInt32 &&& ~~~((1 : UInt32) <<< n)).toUInt8 i = (bit mask i && i ≠ n.toNat) := by
  have hi' : i < 32 := by omega
  simp only [bit, UInt32.toBitVec_toUInt8, UInt32.toBitVec_and, UInt32.toBitVec_not,
    UInt8.toBitVec_toUInt32, BitVec.getLsbD_setWidth, BitVec.getLsbD_and, BitVec.getLsbD_not]
  rw [getLsbD_one_shl hn hi']
  simp [hi, hi']

theorem bit_set (mask : UInt8) (hn : n.toNat < 32) (hi : i < 8) :
    bit (mask.toUInt32 ||| (1 : UInt32) <<< n).toUInt8 i = (bit mask i || i = n.toNat) := by
  have hi' : i < 32 := by omega
  simp only [bit, UInt32.toBitVec_toUInt8, UInt32.toBitVec_or, UInt8.toBitVec_toUInt32,
    BitVec.getLsbD_setWidth, BitVec.getLsbD_or]
  rw [getLsbD_one_shl hn hi']
  simp [hi, hi']

end Bits

section Calls

variable {p : Pic} {history : List IrqCall} {n line : Fin 16}

theorem toNat_line (n : Fin 16) : (UInt32.ofNat n.val).toNat = n.val := by
  rw [UInt32.toNat_ofNat']
  omega

theorem line_le (n : Fin 16) : 8 ≤ UInt32.ofNat n.val ↔ 8 ≤ n.val := by
  rw [UInt32.le_iff_toNat_le, toNat_line]
  rfl

/-- The test of `disable_irq` finds the lines of the slave. -/
theorem line_and (n : Fin 16) : UInt32.ofNat n.val &&& 8 ≠ 0 ↔ 8 ≤ n.val := by
  revert n
  decide

theorem enable_slave (h : 8 ≤ n.val) : ∃ mask, p.call (.enable n) =
      { p with slaveMask := mask, writes := (mask, 0xA1) :: p.writes } ∧
    ∀ i < 8, bit mask i = (bit p.slaveMask i && i + 8 ≠ n.val) := by
  have hsub : (UInt32.ofNat n.val - 8).toNat = n.val - 8 := by
    rw [UInt32.toNat_sub_of_le _ _ ((line_le n).mpr h), toNat_line]
    rfl
  simp only [Pic.call, Pic.enableIrq, if_pos ((line_le n).mpr h)]
  refine ⟨_, rfl, fun i hi => ?_⟩
  rw [bit_clear _ (by omega) hi, hsub]
  congr 2
  exact propext (by omega)

theorem enable_master (h : n.val < 8) : ∃ mask, p.call (.enable n) =
      { p with masterMask := mask, writes := (mask, 0x21) :: p.writes } ∧
    ∀ i < 8, bit mask i = (bit p.masterMask i && i ≠ n.val) := by
  simp only [Pic.call, Pic.enableIrq, if_neg (mt (line_le n).mp (Nat.not_le.mpr h))]
  refine ⟨_, rfl, fun i hi => ?_⟩
  rw [bit_clear _ (by rw [toNat_line]; omega) hi, toNat_line]

/-- A line of the slave: `1 << irq_num` is cut off both masks. -/
theorem disable_slave (h : 8 ≤ n.val) : p.call (.disable n) =
    { p with writes := (p.slaveMask, 0xA1) :: p.writes } := by
  have hsame : ∀ mask : UInt8,
      (mask.toUInt32 ||| (1 : UInt32) <<< UInt32.ofNat n.val).toUInt8 = mask := by
    intro mask
    refine bit_ext fun i hi => ?_
    rw [bit_set _ (by rw [toNat_line]; omega) hi, toNat_line]
    simp
    omega
  simp only [Pic.call, Pic.disableIrq, hsame, if_pos ((line_and n).mpr h)]
  rfl

/-- A line of the master: the bit is set in both masks, and one of them is written. -/
theorem disable_master (h : n.val < 8) : ∃ master slave, p.call (.disable n) =
      ⟨master, slave, (master, 0x21) :: p.writes⟩ ∧
    (∀ i < 8, bit master i = (bit p.masterMask i || i = n.val)) ∧
    ∀ i < 8, bit slave i = (bit p.slaveMask i || i = n.val) := by
  simp only [Pic.call, Pic.disableIrq, if_neg (mt (line_and n).mp (Nat.not_le.mpr h))]
  refine ⟨_, _, rfl, fun i hi => ?_, fun i hi => ?_⟩
  · rw [bit_set _ (by rw [toNat_line]; omega) hi, toNat_line]
  · rw [bit_set _ (by rw [toNat_line]; omega) hi, toNat_line]

theorem masked_enable :
    (p.call (.enable n)).masked line = (p.masked line && line ≠ n) := by
  by_cases h : n.val < 8
  · obtain ⟨mask, heq, hbit⟩ := enable_master (p := p) h
    rw [heq]
    unfold Pic.masked
    split
    · rename_i hl
      rw [hbit _ hl]
      simp [Fin.ext_iff]
    · have hne : line ≠ n := by omega
      simp [hne]
  · obtain ⟨mask, heq, hbit⟩ := enable_slave (p := p) (Nat.not_lt.mp h)
    rw [heq]
    unfold Pic.masked
    split
    · have hne : line ≠ n := by omega
      simp [hne]
    · rename_i hl
      rw [hbit _ (by omega), Nat.sub_add_cancel (Nat.not_lt.mp hl)]
      simp [Fin.ext_iff]

theorem masked_disable_slave (h : 8 ≤ n.val) :
    (p.call (.disable n)).masked line = p.masked line := by
  rw [disable_slave h]
  rfl

/-- A line of the master is masked, and with it the line of the slave that has its bit. -/
theorem masked_disable_master (h : n.val < 8) : (p.call (.disable n)).masked line =
    (p.masked line || line = n || line = onSlave n) := by
  obtain ⟨master, slave, heq, hm, hs⟩ := disable_master (p := p) h
  rw [heq]
  unfold Pic.masked
  split
  · rename_i hl
    have hne : line ≠ onSlave n := by
      intro he
      rw [he] at hl
      simp only [onSlave] at hl
      omega
    rw [hm _ hl]
    simp [Fin.ext_iff, hne]
  · rename_i hl
    have hne : line ≠ n := by omega
    have hiff : line.val - 8 = n.val ↔ line = onSlave n := by
      rw [Fin.ext_iff]
      simp only [onSlave]
      omega
    rw [hs _ (by omega)]
    simp [hne, hiff]

/-- It leaves the mask of the slave if that line is masked already. -/
theorem slaveMask_disable (h : n.val < 8) (hset : p.masked (onSlave n) = true) :
    (p.call (.disable n)).slaveMask = p.slaveMask := by
  have hbit : p.masked (onSlave n) = bit p.slaveMask n.val := by
    unfold Pic.masked onSlave
    rw [if_neg (by simp), Nat.add_sub_cancel_left, Nat.mod_eq_of_lt h]
  obtain ⟨master, slave, heq, -, hs⟩ := disable_master (p := p) h
  rw [heq]
  refine bit_ext fun i hi => ?_
  rw [hs i hi]
  by_cases hin : i = n.val
  · rw [hin, ← hbit]
    simp [hset]
  · simp [hin]

theorem lastWritten_cons (master slave value : UInt8) (port port' : Nat)
    (writes : List (UInt8 × Nat)) :
    (⟨master, slave, (value, port) :: writes⟩ : Pic).lastWritten port' =
      if port = port' then some value else (⟨master, slave, writes⟩ : Pic).lastWritten port' := by
  by_cases hp : port = port' <;> simp [Pic.lastWritten, hp]

end Calls

/-! ## One call -/

section Step

variable {p : Pic} {history : List IrqCall} {n line : Fin 16} {c : IrqCall}

theorem lastCall_cons :
    lastCall (c :: history) line = if c.line = line then some c else lastCall history line := by
  by_cases hl : c.line = line <;> simp [lastCall, hl]

theorem lineOpen_enable : LineOpen (.enable n :: history) n := by
  simp [LineOpen, lastCall_cons, IrqCall.line]

theorem not_lineOpen_disable : ¬ LineOpen (.disable n :: history) n := by
  simp [LineOpen, lastCall_cons, IrqCall.line]

theorem lineOpen_cons_of_ne (h : line ≠ c.line) :
    LineOpen (c :: history) line ↔ LineOpen history line := by
  simp [LineOpen, lastCall_cons, Ne.symm h]

/-- All lines of the slave are masked at the start, so one is open exactly if it was enabled. -/
theorem lineOpen_onSlave :
    LineOpen history (onSlave n) ↔ lastCall history (onSlave n) = some (.enable (onSlave n)) := by
  have hstart : ∀ n, Pic.start.masked (onSlave n) = true := by decide
  simp [LineOpen, hstart]

theorem masksTrack_enable (h : MasksTrack (p, history)) :
    MasksTrack (p.call (.enable n), .enable n :: history) := by
  have hports : (p.call (.enable n)).lastWritten 0x21 = some (p.call (.enable n)).masterMask ∧
      (p.call (.enable n)).lastWritten 0xA1 = some (p.call (.enable n)).slaveMask := by
    by_cases hn : n.val < 8
    · obtain ⟨mask, heq, -⟩ := enable_master (p := p) hn
      rw [heq, lastWritten_cons, lastWritten_cons]
      exact ⟨rfl, h.slave⟩
    · obtain ⟨mask, heq, -⟩ := enable_slave (p := p) (Nat.not_lt.mp hn)
      rw [heq, lastWritten_cons, lastWritten_cons]
      exact ⟨h.master, rfl⟩
  refine ⟨fun line => ?_, hports.1, hports.2⟩
  rw [masked_enable]
  by_cases hl : line = n
  · subst hl
    exact iff_of_true (by simp) lineOpen_enable
  · rw [lineOpen_cons_of_ne hl, ← h.lines]
    simp [hl]

/-- A `disable_irq` of a line of the slave leaves the bit, so the bit must be set already. -/
theorem masksTrack_disable_slave (h : MasksTrack (p, history)) (hn : 8 ≤ n.val) :
    MasksTrack (p.call (.disable n), .disable n :: history) ↔ ¬ LineOpen history n := by
  constructor
  · intro h'
    have hself := h'.lines n
    rw [masked_disable_slave hn] at hself
    rw [← h.lines, hself]
    exact not_lineOpen_disable
  · intro hclosed
    refine ⟨fun line => ?_, ?_, ?_⟩
    · rw [masked_disable_slave hn, h.lines]
      by_cases hl : line = n
      · subst hl
        exact iff_of_false hclosed not_lineOpen_disable
      · exact (lineOpen_cons_of_ne hl).symm
    · rw [disable_slave hn, lastWritten_cons]
      exact h.master
    · rw [disable_slave hn, lastWritten_cons]
      rfl

/-- A `disable_irq` of a line of the master sets the bit of a line of the slave too. -/
theorem masksTrack_disable_master (h : MasksTrack (p, history)) (hn : n.val < 8) :
    MasksTrack (p.call (.disable n), .disable n :: history) ↔ ¬ LineOpen history (onSlave n) := by
  have hne : onSlave n ≠ n := by
    intro he
    have := congrArg Fin.val he
    simp only [onSlave] at this
    omega
  constructor
  · intro h'
    have hother := h'.lines (onSlave n)
    rw [masked_disable_master hn, lineOpen_cons_of_ne hne] at hother
    rw [← hother]
    simp
  · intro hclosed
    have hset : p.masked (onSlave n) = true := by
      rw [← h.lines, Bool.not_eq_false] at hclosed
      exact hclosed
    refine ⟨fun line => ?_, ?_, ?_⟩
    · rw [masked_disable_master hn]
      by_cases hl : line = n
      · subst hl
        exact iff_of_false (by simp) not_lineOpen_disable
      · rw [lineOpen_cons_of_ne hl, ← h.lines]
        by_cases ho : line = onSlave n
        · rw [ho, hset]
          simp
        · simp [hl, ho]
    · obtain ⟨master, slave, heq, -, -⟩ := disable_master (p := p) hn
      rw [heq, lastWritten_cons]
      rfl
    · -- the port of the slave keeps its value, so the variable must
      rw [slaveMask_disable hn hset]
      obtain ⟨master, slave, heq, -, -⟩ := disable_master (p := p) hn
      rw [heq, lastWritten_cons]
      exact h.slave

/-- **One call.** The masks go on telling which lines are open exactly if the line of the slave that
a `disable_irq` meets is closed. -/
theorem masksTrack_step (h : MasksTrack (p, history)) :
    MasksTrack (p.call c, c :: history) ↔ SlaveClosed history c := by
  cases c with
  | enable n => exact iff_of_true (masksTrack_enable h) nofun
  | disable n =>
    have hclosed : SlaveClosed history (.disable n) ↔ ¬ LineOpen history (onSlave n) := by
      rw [lineOpen_onSlave]
      exact ⟨fun hc => hc n rfl, fun hc m hm => by cases hm; exact hc⟩
    rw [hclosed]
    by_cases hn : n.val < 8
    · exact masksTrack_disable_master h hn
    · have hself : onSlave n = n := by
        apply Fin.ext
        simp only [onSlave]
        omega
      rw [hself]
      exact masksTrack_disable_slave h (Nat.not_lt.mp hn)

/-- A call under that condition keeps the bits of the other lines. -/
theorem ownBitOnly_of_closed (h : MasksTrack (p, history)) (hc : SlaveClosed history c) :
    OwnBitOnly p c := by
  have h' := (masksTrack_step h).mpr hc
  intro line hl
  have hiff : (p.call c).masked line = false ↔ p.masked line = false := by
    rw [h'.lines, h.lines, lineOpen_cons_of_ne hl]
  rw [Bool.eq_iff_iff, ← Bool.not_eq_false, ← Bool.not_eq_false, hiff]

end Step

/-! ## Every sequence of calls -/

theorem masksTrack_start : MasksTrack (Pic.start, []) := by
  refine ⟨fun line => ?_, rfl, rfl⟩
  simp [LineOpen, lastCall]

/-- **The masks track the calls** in a sequence of `enable_irq` and `disable_irq` exactly if every
`disable_irq` is made while the line of the slave with its bit has not been enabled. -/
theorem irqMasks_iff (calls : List IrqCall) :
    irqCalls.Always MasksTrack (Pic.start, []) calls ∧
      irqCalls.Along (fun s c => OwnBitOnly s.1 c) (Pic.start, []) calls ↔
    irqCalls.Along (fun s c => SlaveClosed s.2 c) (Pic.start, []) calls := by
  have hstep : ∀ s c s', MasksTrack s → irqCalls.step s c = some s' →
      (MasksTrack s' ↔ SlaveClosed s.2 c) := by
    rintro ⟨p, history⟩ c s' h hs
    cases hs
    exact masksTrack_step h
  obtain ⟨s', hr⟩ := irqCalls.run_total (fun _ _ => ⟨_, rfl⟩) (Pic.start, []) calls
  have halways := Lts.always_iff_along (I := fun _ => True) (fun _ _ _ _ _ => trivial)
    (fun s c s' _ => hstep s c s') trivial masksTrack_start hr
  rw [halways]
  refine and_iff_left_of_imp fun hc => ?_
  exact Lts.along_of_inv (fun s c s' h hg hs => (hstep s c s' h hs).mpr hg)
    (fun s c h hg => ownBitOnly_of_closed h hg) masksTrack_start hc

/-- The clock is enabled and then disabled: its line stays open. Disabling line 0 instead masks it in
the variable and not at the port. -/
theorem disabled_clock_stays_open :
    (∃ p history, irqCalls.run (Pic.start, []) [.enable 8, .disable 8] = some (p, history) ∧
      p.masked 8 = false ∧ lastCall history 8 = some (.disable 8) ∧ ¬ MasksTrack (p, history)) ∧
    ∃ p history, irqCalls.run (Pic.start, []) [.enable 8, .disable 0] = some (p, history) ∧
      p.masked 8 = true ∧ lastCall history 8 = some (.enable 8) ∧
      p.lastWritten 0xA1 = some 0xFE ∧ p.slaveMask = 0xFF ∧ ¬ MasksTrack (p, history) := by
  constructor
  · refine ⟨_, _, rfl, by decide, by decide, fun h => ?_⟩
    exact absurd (h.lines 8) (by decide)
  · refine ⟨_, _, rfl, by decide, by decide, by decide, by decide, fun h => ?_⟩
    exact absurd (h.lines 8) (by decide)

end Mp3
