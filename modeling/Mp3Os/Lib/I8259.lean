import Mathlib.Data.Fin.Basic

/-!
# A pair of interrupt controllers (8259A)

A chip has eight lines, a mask, and the lines that are **in service**: delivered to the processor
and not ended yet. A line in service blocks itself and the lines after it. Each chip has a command
port and a data port. ICW1 starts an initialization, which takes the next words at the data port
(`Phase`); otherwise the data port is the mask, and a command can end a line (EOI).

In a pair the slave is on line 2 of the master: its lines are the lines 8 to 15 of the pair. The
commands that rotate the priorities are left out.
-/

namespace I8259

/-- The initialization word that comes next at the data port, if there is one: `single` when there is
no other chip, and so no ICW3, and `four` when an ICW4 is to come. -/
inductive Phase where
  | ready
  | icw2 (single four : Bool)
  | icw3 (four : Bool)
  | icw4
  deriving DecidableEq

/-- A chip: `base` is the vector of its first line. -/
structure Chip where
  phase : Phase
  base : UInt8
  mask : UInt8
  inService : UInt8
  deriving DecidableEq

namespace Chip

variable (c : Chip)

/-- A line is taken into service. -/
def start (i : Fin 8) : Chip := { c with inService := c.inService ||| (1 <<< UInt8.ofNat i) }

/-- A line is no longer in service. -/
def finish (i : Fin 8) : Chip := { c with inService := c.inService &&& ~~~(1 <<< UInt8.ofNat i) }

/-- A byte at the command port: ICW1, the choice of a register to read, or an EOI, for a line or for
the first one that is in service. -/
def command (d : UInt8) : Chip :=
  if d.toNat.testBit 4 then ⟨.icw2 (d.toNat.testBit 1) (d.toNat.testBit 0), c.base, 0, 0⟩
  else if d.toNat.testBit 3 then c
  else if d.toNat / 32 = 3 then c.finish ⟨d.toNat % 8, Nat.mod_lt _ (by decide)⟩
  else if d.toNat / 32 = 1 then
    ((List.finRange 8).find? fun i : Fin 8 => c.inService.toNat.testBit i).elim c c.finish
  else c

/-- A byte at the data port. -/
def data (d : UInt8) : Chip :=
  let behind (four : Bool) : Phase := if four then .icw4 else .ready
  match c.phase with
  | .ready => { c with mask := d }
  | .icw2 single four =>
    { c with base := d &&& 0xF8, phase := if single then behind four else .icw3 four }
  | .icw3 four => { c with phase := behind four }
  | .icw4 => { c with phase := .ready }

/-- A request on the line is delivered. -/
def Delivers (i : Fin 8) : Prop :=
  c.phase = .ready ∧ c.mask.toNat.testBit i = false ∧
    ∀ j : Fin 8, j ≤ i → c.inService.toNat.testBit j = false

instance (i : Fin 8) : Decidable (c.Delivers i) := inferInstanceAs (Decidable (_ ∧ _ ∧ _))

end Chip

/-- A master and a slave. -/
structure Pair where
  master : Chip
  slave : Chip
  deriving DecidableEq

namespace Pair

variable (p : Pair)

/-- A byte at a port, on a machine with the chips at the usual ports. -/
def out (d : UInt8) (port : Nat) : Pair :=
  if port = 0x20 then { p with master := p.master.command d }
  else if port = 0x21 then { p with master := p.master.data d }
  else if port = 0xA0 then { p with slave := p.slave.command d }
  else if port = 0xA1 then { p with slave := p.slave.data d }
  else p

/-- The line on its chip. -/
def line (n : Fin 16) : Fin 8 := ⟨n % 8, Nat.mod_lt _ (by decide)⟩

/-- A request on the line reaches the processor. The slave's lines go through line 2, which has no
requests of its own. -/
def Delivers (n : Fin 16) : Prop :=
  if n < 8 then n ≠ 2 ∧ p.master.Delivers (line n) else p.slave.Delivers (line n) ∧ p.master.Delivers 2

instance (n : Fin 16) : Decidable (p.Delivers n) :=
  inferInstanceAs (Decidable (if n < 8 then _ else _))

/-- The processor takes a request: the lines are in service. -/
def acknowledge (n : Fin 16) : Pair :=
  if n < 8 then { p with master := p.master.start (line n) }
  else ⟨p.master.start 2, p.slave.start (line n)⟩

/-- The vector with which it takes the request. -/
def vector (n : Fin 16) : Nat := (if n < 8 then p.master.base else p.slave.base).toNat + n % 8

/-- The end of a line, and of line 2 for a line of the slave. -/
def finish (n : Fin 16) : Pair :=
  if n < 8 then { p with master := p.master.finish (line n) }
  else ⟨p.master.finish 2, p.slave.finish (line n)⟩

end Pair

section Rules

variable {c : Chip} {p : Pair} {n : Fin 16} {i : Fin 8}

theorem Chip.finish_start (h : c.Delivers i) : (c.start i).finish i = c := by
  have hbits : ∀ (k : Fin 256) (i : Fin 8), k.val.testBit i = false →
      (UInt8.ofNat k ||| (1 <<< UInt8.ofNat i)) &&& ~~~(1 <<< UInt8.ofNat i) = UInt8.ofNat k := by
    decide +kernel
  have hservice := hbits ⟨c.inService.toNat, c.inService.toNat_lt⟩ i (h.2.2 i (Nat.le_refl _))
  rw [UInt8.ofNat_toNat] at hservice
  simp only [Chip.start, Chip.finish, hservice]

/-- The command `0x60 + i` is the EOI of line `i`. -/
theorem Chip.command_eoi (c : Chip) (i : Fin 8) : c.command (0x60 ||| UInt8.ofNat i) = c.finish i := by
  have h : ∀ i : Fin 8, (0x60 ||| UInt8.ofNat i : UInt8).toNat = 96 + i ∧
      (96 + i.val).testBit 4 = false ∧ (96 + i.val).testBit 3 = false := by decide
  obtain ⟨hd, h4, h3⟩ := h i
  have hmod : (96 + i.val) % 8 = i := by omega
  unfold Chip.command
  simp only [hd, h4, h3, hmod, Bool.false_eq_true, ↓reduceIte]
  rw [if_pos (by omega)]

/-- An initialization with four words, in a pair, and then the mask. -/
theorem Chip.initialize (c : Chip) (base cascade mask : UInt8) :
    ((((c.command 0x11).data base).data cascade).data 0x01).data mask =
      ⟨.ready, base &&& 0xF8, mask, 0⟩ := rfl

/-- **A line that is ended leaves nothing in service.** -/
theorem Pair.finish_acknowledge (h : p.Delivers n) : (p.acknowledge n).finish n = p := by
  unfold Pair.Delivers at h
  unfold Pair.acknowledge Pair.finish
  split at h
  · rename_i hn
    simp only [if_pos hn, Chip.finish_start h.2]
  · rename_i hn
    simp only [if_neg hn, Chip.finish_start h.1, Chip.finish_start h.2]

end Rules

end I8259
