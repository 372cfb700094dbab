import Mp3Os.Acknowledge

/-!
# The interrupt descriptor table (`idt.c`)

`setup_idt_inplace` writes bit fields; the processor reads words of 64 bits. `gate` is its reading of
one: a gate of 32 bits, if it is present. Whatever addresses the linker gives to the handlers, the
gates are those that the code means (`gate_table`), but for vector 47: its handler is set and it is
not present, as the loop ends before it. A program can `int` gate 0x80 only, and only that gate
leaves interrupts on.

With `Machine`, each event enters the handler that the model runs for it
(`events_enter_handlers`).
-/

namespace Mp3

/-- `idt_desc_t`. -/
structure IdtDesc where
  offset15_00 : BitVec 16
  segSelector : BitVec 16
  reserved4 : BitVec 8
  reserved3 : BitVec 1
  reserved2 : BitVec 1
  reserved1 : BitVec 1
  size : BitVec 1
  reserved0 : BitVec 1
  dpl : BitVec 2
  present : BitVec 1
  offset31_16 : BitVec 16

namespace IdtDesc

/-- `val` of the union: the last field has the highest bits. -/
def val (d : IdtDesc) : BitVec 64 :=
  d.offset31_16 ++ d.present ++ d.dpl ++ d.reserved0 ++ d.size ++ d.reserved1 ++ d.reserved2 ++
    d.reserved3 ++ d.reserved4 ++ d.segSelector ++ d.offset15_00

/-- An entry as `x86_desc.S` has it. -/
def zero : IdtDesc := ⟨0, 0, 0, 0, 0, 0, 0, 0, 0, 0, 0⟩

end IdtDesc

/-- The handlers that the table names. -/
inductive Handler where
  | de | db | nmi | bp | of | br | ud | nm | df | cpso | ts | np | ssf | gp | pf | ir | mf | ac | mc
  | xf | genPurp | pitAsm | keyboardAsm | rtcAsm | syscallHandlerAsm
  deriving DecidableEq

/-- The message of a handler. -/
def errorText (number : List Char) : List UInt8 :=
  lit (['E', 'R', 'R', 'O', 'R', ' '] ++ number ++ ['\n'])

/-- What the handler of an exception prints, before it halts the process. -/
def Handler.text : Handler → List UInt8
  | de => errorText ['1']
  | db => errorText ['2']
  | nmi => errorText ['3']
  | bp => errorText ['4']
  | of => errorText ['5']
  | br => errorText ['6']
  | ud => errorText ['7']
  | nm => errorText ['8']
  | df => errorText ['9']
  | cpso => errorText ['1', '0']
  | ts => errorText ['1', '1']
  | np => errorText ['1', '2']
  | ssf => errorText ['1', '3']
  | gp => errorText ['1', '4']
  | pf => lit ['P', 'a', 'g', 'e', ' ', 'F', 'a', 'u', 'l', 't', '\n']
  | ir => errorText ['1', '6']
  | mf => errorText ['1', '7']
  | ac => errorText ['1', '8']
  | mc => errorText ['1', '9']
  | xf => errorText ['2', '0']
  | genPurp | pitAsm | keyboardAsm | rtcAsm | syscallHandlerAsm => []

/-- `set_entry`. -/
def setEntry (i : Nat) (d : IdtDesc) : IdtDesc :=
  let d := { d with
    segSelector := 0x10
    dpl := 0
    reserved0 := 0
    reserved1 := 1
    reserved2 := 1
    reserved3 := 0
    present := 1
    size := 1 }
  if i = 0x80 then { d with dpl := 3, reserved3 := 1 } else d

/-- `SET_IDT_ENTRY`. -/
def setIdtEntry (handler : BitVec 32) (d : IdtDesc) : IdtDesc :=
  { d with
    offset31_16 := ((handler &&& 0xFFFF0000) >>> 16).setWidth 16
    offset15_00 := (handler &&& 0xFFFF).setWidth 16 }

/-- The handlers of the vectors 0 to 47. -/
def idtHandlers : List Handler :=
  [.de, .db, .nmi, .bp, .of, .br, .ud, .nm, .df, .cpso, .ts, .np, .ssf, .gp, .pf, .ir, .mf, .ac, .mc,
    .xf] ++ List.replicate 12 .genPurp ++ [.pitAsm, .keyboardAsm] ++ List.replicate 6 .genPurp ++
  [.rtcAsm] ++ List.replicate 7 .genPurp

/-- A change to one entry. -/
def modEntry {α : Type} (t : Nat → α) (i : Nat) (f : α → α) : Nat → α :=
  Function.update t i (f (t i))

/-- `setup_idt_inplace`. `addr` has the addresses of the handlers. -/
def setupIdtInplace (addr : Handler → BitVec 32) (idt : Nat → IdtDesc) : Nat → IdtDesc :=
  let idt := (List.range 47).foldl (fun idt i => modEntry idt i (setEntry i)) idt
  let idt := modEntry idt 0x80 (setEntry 0x80)
  let idt := idtHandlers.zipIdx.foldl (fun idt h => modEntry idt h.2 (setIdtEntry (addr h.1))) idt
  modEntry idt 0x80 (setIdtEntry (addr .syscallHandlerAsm))

/-! ## How the processor reads a descriptor -/

/-- A gate: where it leads, whether it leaves interrupts on, and who may `int` it. -/
structure Gate where
  offset : BitVec 32
  selector : BitVec 16
  trap : Bool
  dpl : BitVec 2
  deriving DecidableEq

/-- A gate is present if bit 47 is set, and of 32 bits if the bits 44 to 41 are 0111. -/
def gate (w : BitVec 64) : Option Gate :=
  if w.extractLsb' 47 1 = 1 ∧ w.extractLsb' 44 1 = 0 ∧ w.extractLsb' 43 1 = 1 ∧
      w.extractLsb' 42 1 = 1 ∧ w.extractLsb' 41 1 = 1 then
    some ⟨w.extractLsb' 48 16 ++ w.extractLsb' 0 16, w.extractLsb' 16 16, w.extractLsb' 40 1 = 1,
      w.extractLsb' 45 2⟩
  else none

/-- The handler that a vector is meant for. -/
def gateHandler (v : Nat) : Option Handler :=
  if v = 0x80 then some .syscallHandlerAsm else if v < 47 then idtHandlers[v]? else none

section Reading

variable {α : Type} {t : Nat → α} {i k n : Nat}

theorem modEntry_self (f : α → α) : modEntry t i f i = f (t i) := Function.update_self ..

theorem modEntry_ne (h : k ≠ i) (f : α → α) : modEntry t i f k = t k := Function.update_of_ne h ..

/-- A loop that changes the entries from 0. -/
theorem foldl_range_modEntry (f : Nat → α → α) :
    (List.range n).foldl (fun t i => modEntry t i (f i)) t k = if k < n then f k (t k) else t k := by
  induction n with
  | zero => rfl
  | succ n ih =>
    rw [List.range_succ, List.foldl_append, List.foldl_cons, List.foldl_nil]
    by_cases hk : k = n
    · subst hk
      rw [modEntry_self, ih, if_neg (Nat.lt_irrefl k), if_pos k.lt_succ_self]
    · rw [modEntry_ne hk, ih]
      exact if_congr (by omega) rfl rfl

/-- A change to each entry of a list, from entry `n`. -/
theorem foldl_zipIdx_modEntry {β : Type} (f : β → α → α) (l : List β) :
    (l.zipIdx n).foldl (fun t b => modEntry t b.2 (f b.1)) t k =
      if n ≤ k then (l[k - n]?).elim (t k) fun b => f b (t k) else t k := by
  induction l generalizing n t with
  | nil =>
    rw [List.zipIdx_nil, List.foldl_nil, List.getElem?_nil, Option.elim_none, ite_self]
  | cons b l ih =>
    rw [List.zipIdx_cons, List.foldl_cons, ih]
    obtain hk | rfl | hk := Nat.lt_trichotomy k n
    · rw [if_neg (by omega), if_neg (by omega), modEntry_ne (by omega)]
    · rw [if_neg (by omega), if_pos (Nat.le_refl k), modEntry_self, Nat.sub_self]
      rfl
    · rw [if_pos (Nat.succ_le_of_lt hk), if_pos (by omega), modEntry_ne (by omega),
        show k - n = (k - (n + 1)) + 1 by omega, List.getElem?_cons_succ]

/-- The fields are where the processor looks for them. -/
theorem gate_val (d : IdtDesc) : gate d.val =
    if d.present = 1 ∧ d.reserved0 = 0 ∧ d.size = 1 ∧ d.reserved1 = 1 ∧ d.reserved2 = 1 then
      some ⟨d.offset31_16 ++ d.offset15_00, d.segSelector, d.reserved3 = 1, d.dpl⟩
    else none := by
  simp (disch := decide) only [gate, IdtDesc.val, BitVec.extractLsb'_append_eq_of_le,
    BitVec.extractLsb'_append_eq_of_add_le, BitVec.extractLsb'_eq_self, Nat.reduceSub]

/-- The halves of an address. -/
theorem offset_setIdtEntry (handler : BitVec 32) (d : IdtDesc) :
    (setIdtEntry handler d).offset31_16 ++ (setIdtEntry handler d).offset15_00 = handler := by
  have hhigh : ∀ j < 16, (0xFFFF0000 : BitVec 32).getLsbD (16 + j) = true := by decide
  have hlow : ∀ j < 16, (0xFFFF : BitVec 32).getLsbD j = true := by decide
  apply BitVec.eq_of_getLsbD_eq
  intro j hj
  rw [BitVec.getLsbD_append]
  split
  · rename_i h
    simp only [setIdtEntry, BitVec.getLsbD_setWidth, BitVec.getLsbD_and, hlow j h, h, decide_true,
      Bool.true_and, Bool.and_true]
  · have h : j - 16 < 16 := by omega
    have hj : 16 + (j - 16) = j := by omega
    have hmask := hj ▸ hhigh (j - 16) h
    simp only [setIdtEntry, BitVec.getLsbD_setWidth, BitVec.getLsbD_ushiftRight, BitVec.getLsbD_and,
      hj, hmask, h, decide_true, Bool.true_and, Bool.and_true]

/-- An entry that is set and has its handler. -/
theorem gate_entry (handler : BitVec 32) (v : Nat) (d : IdtDesc) :
    gate (setIdtEntry handler (setEntry v d)).val =
      some ⟨handler, 0x10, v = 0x80, if v = 0x80 then 3 else 0⟩ := by
  rw [gate_val, offset_setIdtEntry]
  by_cases hv : v = 0x80
  · simp only [setIdtEntry, setEntry, hv, ↓reduceIte]
    rfl
  · simp only [setIdtEntry, setEntry, hv, ↓reduceIte]
    rfl

variable (addr : Handler → BitVec 32) (idt : Nat → IdtDesc)

theorem setupIdtInplace_syscall :
    setupIdtInplace addr idt 0x80 = setIdtEntry (addr .syscallHandlerAsm) (setEntry 0x80 (idt 0x80)) := by
  unfold setupIdtInplace
  rw [modEntry_self, foldl_zipIdx_modEntry fun h => setIdtEntry (addr h), if_pos (Nat.zero_le _),
    modEntry_self, foldl_range_modEntry, if_neg (by decide)]
  rfl

theorem setupIdtInplace_of_ne {v : Nat} (hv : v ≠ 0x80) :
    setupIdtInplace addr idt v =
      let d := if v < 47 then setEntry v (idt v) else idt v
      (idtHandlers[v]?).elim d fun h => setIdtEntry (addr h) d := by
  unfold setupIdtInplace
  rw [modEntry_ne hv, foldl_zipIdx_modEntry fun h => setIdtEntry (addr h), if_pos (Nat.zero_le _),
    modEntry_ne hv, foldl_range_modEntry]
  rfl

/-- **The table that the processor reads.** For all addresses of the handlers: the vectors up to 46
and 0x80 have the gates of their handlers, and no other vector has one. Gate 0x80 leaves interrupts
on and may be used by a program; no other gate does or may. -/
theorem gate_table (v : Nat) : gate (setupIdtInplace addr (fun _ => .zero) v).val =
    (gateHandler v).map fun h => ⟨addr h, 0x10, v = 0x80, if v = 0x80 then 3 else 0⟩ := by
  by_cases hv : v = 0x80
  · subst hv
    rw [setupIdtInplace_syscall, gate_entry]
    rfl
  · rw [setupIdtInplace_of_ne addr _ hv, gateHandler]
    by_cases hlt : v < 47
    · have hlen : v < idtHandlers.length := Nat.lt_succ_of_lt hlt
      simp only [hv, hlt, ↓reduceIte, List.getElem?_eq_getElem hlen, Option.elim_some, gate_entry,
        Option.map_some]
    · have hpresent : ∀ o : Option Handler,
          (o.elim IdtDesc.zero fun h => setIdtEntry (addr h) IdtDesc.zero).present = 0 := by
        rintro (_ | h) <;> rfl
      have hne : (0 : BitVec 1) ≠ 1 := by decide
      simp only [hv, hlt, ↓reduceIte, gate_val, hpresent, hne, false_and, Option.map_none]

end Reading

/-! ## The gates of the machine -/

namespace MachineEvent

/-- The vector of an event that is no interrupt: that of the exception, or the one of `int 0x80`. -/
def trap : MachineEvent → Nat
  | kernel (.exception v _) => v
  | _ => 0x80

/-- The vector with which the processor takes the event. -/
def vector (chips : I8259.Pair) (e : MachineEvent) : Nat := e.line.elim e.trap chips.vector

/-- The assembly linkage, or the handler of an exception, that the event models. -/
def handler : MachineEvent → Handler
  | kernel (.tick ..) | kernel (.tickLaunch ..) => .pitAsm
  | kernel (.key ..) | kernel (.keyFault ..) => .keyboardAsm
  | clock => .rtcAsm
  | kernel (.exception v _) => idtHandlers.getD v .genPurp
  | kernel _ => .syscallHandlerAsm

/-- A process makes the event with `int 0x80`. -/
def isCall (e : MachineEvent) : Bool := e.handler = .syscallHandlerAsm

end MachineEvent

section Machine

variable {m m' : Machine} {b : BootIn} {chips : I8259.Pair} {es : List MachineEvent}
  {e : MachineEvent} (addr : Handler → BitVec 32)

/-- The handlers print what the model prints for their vectors. -/
theorem handler_text (v : Nat) (hv : v < 32) :
    (idtHandlers.getD v .genPurp).text = exceptionText v := by
  have hall : ∀ v < 32, (idtHandlers.getD v .genPurp).text = exceptionText v := by decide +kernel
  exact hall v hv

/-- The exceptions of the processor are the vectors up to 31. -/
def MachineEvent.Real (e : MachineEvent) : Prop := ∀ v xs, e = .kernel (.exception v xs) → v < 32

theorem gateHandler_line {n : Fin 16} (h : e.line = some n) :
    gateHandler (0x20 + n) = some e.handler ∧ e.isCall = false := by
  rcases e with e | _
  · cases e <;> cases h <;> exact ⟨rfl, rfl⟩
  · cases h
    exact ⟨rfl, rfl⟩

theorem gateHandler_trap (h : e.line = none) (hx : e.Real) :
    gateHandler e.trap = some e.handler ∧ (e.isCall = true ↔ e.trap = 0x80) := by
  have hexc : ∀ v < 32, gateHandler v = some (idtHandlers.getD v .genPurp) ∧
      idtHandlers.getD v .genPurp ≠ .syscallHandlerAsm := by decide
  rcases e with e | _
  · cases e with
    | tick | tickLaunch | key | keyFault => cases h
    | exception v xs =>
      obtain ⟨hg, hne⟩ := hexc v (hx v xs rfl)
      have hlt : v < 32 := hx v xs rfl
      refine ⟨hg, iff_of_false (mt of_decide_eq_true hne) fun hv => ?_⟩
      have hv : v = 0x80 := hv
      omega
    | _ => exact ⟨rfl, iff_of_true rfl rfl⟩
  · cases h

/-- **Each event enters the handler that the model runs for it.** After every run from boot, and
wherever the handlers are: the gate of an event leads to its handler, in the code segment of the
kernel, and it leaves interrupts on just for the system calls. The handler of an exception prints
what the model prints. A program can pass a gate with `int` at 0x80 only. -/
theorem events_enter_handlers (hr : machine.run (Machine.boot b chips) es = some m) (hx : e.Real) :
    gate (setupIdtInplace addr (fun _ => .zero) (e.vector m.chips)).val =
      some ⟨addr e.handler, 0x10, e.isCall, if e.isCall then 3 else 0⟩ ∧
    (∀ v xs, e = .kernel (.exception v xs) → e.handler.text = exceptionText v) ∧
    ∀ v, (∃ g, gate (setupIdtInplace addr (fun _ => .zero) v).val = some g ∧ g.dpl = 3) ↔ v = 0x80 := by
  have hs := serves_run (Machine.serves_boot b chips) hr
  have hgate : gateHandler (e.vector m.chips) = some e.handler ∧
      (e.isCall = true ↔ e.vector m.chips = 0x80) := by
    rw [MachineEvent.vector]
    cases hl : e.line with
    | none => exact gateHandler_trap hl hx
    | some n =>
      obtain ⟨hg, hc⟩ := gateHandler_line hl
      rw [Option.elim_some, hs.chips, servedChips_vector]
      exact ⟨hg, iff_of_false (hc ▸ Bool.false_ne_true) (by omega)⟩
  refine ⟨?_, fun v xs he => ?_, fun v => ⟨?_, fun hv => ?_⟩⟩
  · rw [gate_table, hgate.1, Option.map_some]
    simp only [← hgate.2, Bool.decide_eq_true]
  · subst he
    exact handler_text v (hx v xs rfl)
  · rintro ⟨g, hg, hdpl⟩
    rw [gate_table, Option.map_eq_some_iff] at hg
    obtain ⟨h, -, rfl⟩ := hg
    by_contra hv
    exact absurd ((if_neg hv).symm.trans hdpl) (by decide)
  · subst hv
    exact ⟨_, (gate_table addr 0x80).trans rfl, rfl⟩

/-- The page fault of a program behind a key whose handler has faulted. -/
theorem events_enter_handlers_sample : ∃ m,
    machine.run (Machine.boot sampleBoot sampleChips) keyFaults = some m ∧
    gate (setupIdtInplace (fun h => if h = .pf then 0x00401234 else 0x00400000) (fun _ => .zero)
      (MachineEvent.vector m.chips (.kernel (.exception 14 [])))).val =
        some ⟨0x00401234, 0x10, false, 0⟩ := by
  have hv : (machine.run (Machine.boot sampleBoot sampleChips) keyFaults).isSome := by
    decide +kernel
  obtain ⟨m, hm⟩ := Option.isSome_iff_exists.mp hv
  have hreal : MachineEvent.Real (.kernel (.exception 14 [])) := by
    intro v xs he
    cases he
    decide
  exact ⟨m, hm, (events_enter_handlers _ hm hreal).1⟩

end Machine

end Mp3
