import Mp3Os.Terminals
import Mp3Os.UserFiles

/-!
# `terminal_write` and the interrupts between its bytes

`terminal_write` calls `putc` byte by byte, and system calls leave interrupts on, so between two
bytes there may be ticks, keys, switches and calls of the processes of other terminals. `writes` is
the machine with these steps (a `putc` is one step); `left t` is what the call of the process of
terminal `t` has still to print. A run of it is a run of `kernel` in which each byte is a write of
its own (`writes_run`).

No byte is lost, doubled or misplaced (`writes_interleave`): what terminal `t` gets as text and what
is left are, in order, what was asked for there, and only keys and reads of its own line come
between.
-/

namespace Mp3

/-- The text of an input. -/
def TermInput.bytes : TermInput → List UInt8
  | text bytes => bytes
  | _ => []

/-- The text of some inputs. -/
def printed (ins : List TermInput) : List UInt8 := ins.flatMap TermInput.bytes

/-- The kernel, and what the calls of `terminal_write` have still to print on each terminal. -/
structure Writes where
  kernel : Kernel
  left : Int → List UInt8

/-- The start of a `terminal_write`, its next byte, or another event. -/
inductive WriteEvent where
  | begins (fd : Int) (buf : Nat) (mem : Nat → UInt8) (nbytes : Int)
  | puts (b : UInt8)
  | other (e : Event)

/-- The event is an interrupt; its handler may fault. -/
def Event.isInterrupt : Event → Bool
  | .tick .. | .tickLaunch .. | .key .. | .keyFault .. => true
  | _ => false

/-- The event is a call of `terminal_write`. -/
def Event.writesTerminal (s : Kernel) : Event → Bool
  | .write fd buf _ _ => (s.writeTarget fd buf).isTerminal
  | _ => false

/-- The events of the kernel. -/
def WriteEvent.events : WriteEvent → List Event
  | begins .. => []
  | puts b => [.write 1 0x8000000 (fun _ => b) 1]
  | other e => [e]

namespace Writes

variable (x : Writes)

/-- What the scheduled terminal's call has still to print. -/
def rest : List UInt8 := x.left x.kernel.curTerminal

/-- The call of the scheduled terminal has another rest. -/
def leaves (bytes : List UInt8) : Int → List UInt8 :=
  Function.update x.left x.kernel.curTerminal bytes

/-- One step. A process in the call does nothing else; the fault of a handler ends the process. -/
def step : WriteEvent → Option Writes
  | .begins fd buf mem nbytes =>
    if x.kernel.HasProcess ∧ x.rest = [] ∧ (x.kernel.writeTarget fd buf).isTerminal then
      some { x with left := x.leaves ((List.range nbytes.toNat).map mem) }
    else none
  | .puts b =>
    if x.kernel.HasProcess ∧ x.rest.head? = some b then
      some ⟨x.kernel.print [b], x.leaves x.rest.tail⟩
    else none
  | .other e =>
    if (x.rest ≠ [] → e.isInterrupt = true) ∧ e.writesTerminal x.kernel = false then
      (x.kernel.step e).map fun s =>
        ⟨s, match e with | .keyFault .. => x.leaves [] | _ => x.left⟩
    else none

/-- Nobody is in a call. -/
def idle (s : Kernel) : Writes := ⟨s, fun _ => []⟩

/-- What an event asks to print on terminal `t`. -/
def asks (t : Int) : WriteEvent → List UInt8
  | .begins _ _ mem nbytes =>
    if t = x.kernel.curTerminal then (List.range nbytes.toNat).map mem else []
  | .puts _ => []
  | .other e => printed (x.kernel.inputTo t e)

/-- What a run asks to print there. -/
def asked (t : Int) : Writes → List WriteEvent → List UInt8
  | _, [] => []
  | x, e :: es =>
    x.asks t e ++
      match x.step e with
      | none => []
      | some y => asked t y es

end Writes

/-- The kernel with the steps of `terminal_write`. -/
def writes : Lts Writes WriteEvent := ⟨Writes.step⟩

/-- The event keeps to the window. -/
def WriteApart (x : Writes) : WriteEvent → Prop
  | .other e => Apart x.kernel e
  | _ => True

instance (x : Writes) : ∀ e, Decidable (WriteApart x e)
  | .other _ => inferInstanceAs (Decidable (Apart _ _))
  | .begins .. | .puts _ => isTrue trivial

/-! ## Each step is one of the kernel -/

section Refinement

variable {x y : Writes} {e : WriteEvent} {es : List WriteEvent} {s : Kernel}

theorem step_put (hp : s.HasProcess) (b : UInt8) :
    s.step (.write 1 0x8000000 (fun _ => b) 1) = some (s.print [b]) := by
  rw [Kernel.step, sysWrite_terminal user_addr_ne, Option.map_some, Kernel.syscall, if_pos hp]
  rfl

theorem begins_step {fd n : Int} {buf : Nat} {mem : Nat → UInt8}
    (h : x.step (.begins fd buf mem n) = some y) :
    x.rest = [] ∧ y = { x with left := x.leaves ((List.range n.toNat).map mem) } := by
  obtain ⟨⟨-, hrest, -⟩, h⟩ := Option.ite_none_right_eq_some.mp h
  cases h
  exact ⟨hrest, rfl⟩

theorem puts_step {b : UInt8} (h : x.step (.puts b) = some y) :
    x.kernel.HasProcess ∧ ∃ bs, x.rest = b :: bs ∧ y = ⟨x.kernel.print [b], x.leaves bs⟩ := by
  obtain ⟨⟨hp, hhead⟩, h⟩ := Option.ite_none_right_eq_some.mp h
  cases h
  cases hr : x.rest with
  | nil => rw [hr] at hhead; cases hhead
  | cons b' bs =>
    rw [hr] at hhead
    cases hhead
    exact ⟨hp, bs, rfl, rfl⟩

theorem other_step {e : Event} (h : x.step (.other e) = some y) :
    (x.rest ≠ [] → e.isInterrupt = true) ∧ x.kernel.step e = some y.kernel ∧
      (Apart x.kernel e → y.left = x.left) := by
  obtain ⟨⟨hi, -⟩, h⟩ := Option.ite_none_right_eq_some.mp h
  obtain ⟨s, hs, rfl⟩ := Option.map_eq_some_iff.mp h
  refine ⟨hi, hs, fun ha => ?_⟩
  cases e with
  | keyFault c st xs => exact ha.elim
  | _ => rfl

/-- A step is a run of the kernel. -/
theorem writes_step (h : x.step e = some y) : kernel.run x.kernel e.events = some y.kernel := by
  cases e with
  | begins fd buf mem n =>
    obtain ⟨-, rfl⟩ := begins_step h
    rfl
  | puts b =>
    obtain ⟨hp, bs, -, rfl⟩ := puts_step h
    exact Lts.run_cons.mpr ⟨_, step_put hp b, rfl⟩
  | other e => exact Lts.run_cons.mpr ⟨_, (other_step h).2.1, rfl⟩

/-- **The kernel may take each byte of a `terminal_write` as a write of its own.** -/
theorem writes_run (hr : writes.run x es = some y) :
    kernel.run x.kernel (es.flatMap WriteEvent.events) = some y.kernel :=
  Lts.run_flatMap (f := Writes.kernel) (fun _ _ _ h => writes_step h) hr

theorem writes_apart (h : WriteApart x e) : kernel.Along Apart x.kernel e.events := by
  cases e with
  | begins fd buf mem n => trivial
  | puts b => exact ⟨trivial, fun _ _ => trivial⟩
  | other e => exact ⟨h, fun _ _ => trivial⟩

end Refinement

/-! ## The text of a terminal -/

section Text

variable {x y : Writes} {e : WriteEvent} {es : List WriteEvent} {s s' : Kernel}

theorem inputsTo_append (t : Int) {es fs : List Event} (hr : kernel.run s es = some s') :
    Kernel.inputsTo t s (es ++ fs) = Kernel.inputsTo t s es ++ Kernel.inputsTo t s' fs := by
  induction es generalizing s with
  | nil => cases hr; rfl
  | cons e es ih =>
    obtain ⟨u, hu, hr⟩ := Lts.run_cons.mp hr
    rw [List.cons_append, inputsTo_cons t hu, inputsTo_cons t hu, ih hr, List.append_assoc]

theorem inputsTo_single (t : Int) {e : Event} (hs : s.step e = some s') :
    Kernel.inputsTo t s [e] = s.inputTo t e := by
  rw [inputsTo_cons t hs]
  exact List.append_nil _

theorem printed_append (ins more : List TermInput) :
    printed (ins ++ more) = printed ins ++ printed more := List.flatMap_append ..

/-- Interrupts print nothing, and other events print on the scheduled terminal only. -/
theorem printed_inputTo {t : Int} {e : Event} (ha : Apart s e)
    (h : t ≠ s.curTerminal ∨ e.isInterrupt = true) : printed (s.inputTo t e) = [] := by
  cases e with
  | key c st =>
    simp only [Kernel.inputTo]
    split <;> rfl
  | keyFault c st xs => exact ha.elim
  | write fd buf mem n =>
    have hne := h.resolve_right Bool.false_ne_true
    rw [Kernel.inputTo, if_neg fun hc => hne hc.1]
    rfl
  | read fd buf stack mem n =>
    simp only [Kernel.inputTo]
    split <;> rfl
  | halt ebx xs =>
    rw [Kernel.inputTo, if_neg (h.resolve_right Bool.false_ne_true)]
    rfl
  | exception v xs =>
    rw [Kernel.inputTo, if_neg (h.resolve_right Bool.false_ne_true)]
    rfl
  | vidmapFault a xs =>
    rw [Kernel.inputTo, if_neg (h.resolve_right Bool.false_ne_true)]
    rfl
  | _ => rfl

theorem inputTo_put (t : Int) (b : UInt8) : s.inputTo t (.write 1 0x8000000 (fun _ => b) 1) =
    if t = s.curTerminal then [.text [b]] else [] := by
  have ht : (s.writeTarget 1 0x8000000).isTerminal = true := rfl
  simp only [Kernel.inputTo, ht, and_true]
  rfl

theorem leaves_self (bytes : List UInt8) : x.leaves bytes x.kernel.curTerminal = bytes :=
  Function.update_self ..

theorem leaves_of_ne (bytes : List UInt8) {t : Int} (ht : t ≠ x.kernel.curTerminal) :
    x.leaves bytes t = x.left t := Function.update_of_ne ht ..

/-- **One step** prints what is asked, up to what is left. -/
theorem printed_step (ha : WriteApart x e) (h : x.step e = some y) (t : Int) :
    printed (Kernel.inputsTo t x.kernel e.events) ++ y.left t = x.left t ++ x.asks t e := by
  cases e with
  | begins fd buf mem n =>
    obtain ⟨hrest, rfl⟩ := begins_step h
    show x.leaves ((List.range n.toNat).map mem) t = x.left t ++ if _ then _ else _
    split
    · rename_i ht
      have hleft : x.left t = [] := ht ▸ hrest
      rw [ht, leaves_self, ← ht, hleft, List.nil_append]
    · rename_i ht
      rw [leaves_of_ne _ ht, List.append_nil]
  | puts b =>
    obtain ⟨hp, bs, hrest, rfl⟩ := puts_step h
    rw [WriteEvent.events, inputsTo_single t (step_put hp b), inputTo_put]
    show _ ++ x.leaves bs t = x.left t ++ []
    rw [List.append_nil]
    split
    · rename_i ht
      have hleft : x.left t = b :: bs := ht ▸ hrest
      rw [hleft, ht, leaves_self]
      rfl
    · rename_i ht
      exact leaves_of_ne _ ht
  | other e =>
    obtain ⟨hi, hs, hleft⟩ := other_step h
    rw [WriteEvent.events, inputsTo_single t hs, hleft ha]
    show _ = x.left t ++ printed (x.kernel.inputTo t e)
    by_cases hrest : t = x.kernel.curTerminal ∧ x.rest = []
    · have hnil : x.left t = [] := hrest.1 ▸ hrest.2
      rw [hnil, List.append_nil, List.nil_append]
    · -- nothing is printed: the process is in a call, or the event is not on this terminal
      have hquiet : t ≠ x.kernel.curTerminal ∨ e.isInterrupt = true := by
        by_cases ht : t = x.kernel.curTerminal
        · exact .inr (hi fun hr => hrest ⟨ht, hr⟩)
        · exact .inl ht
      rw [printed_inputTo ha hquiet, List.append_nil, List.nil_append]

theorem asked_cons (t : Int) (h : x.step e = some y) :
    Writes.asked t x (e :: es) = x.asks t e ++ Writes.asked t y es := by
  rw [Writes.asked, h]

/-- **A run** prints what is asked, up to what is left. -/
theorem printed_run (ha : writes.Along WriteApart x es) (hr : writes.run x es = some y) (t : Int) :
    printed (Kernel.inputsTo t x.kernel (es.flatMap WriteEvent.events)) ++ y.left t =
      x.left t ++ Writes.asked t x es := by
  induction es generalizing x with
  | nil =>
    cases hr
    exact (List.append_nil _).symm
  | cons e es ih =>
    obtain ⟨u, hu, hr⟩ := Lts.run_cons.mp hr
    have hstep := printed_step ha.1 hu t
    rw [List.flatMap_cons, inputsTo_append t (writes_step hu), printed_append, List.append_assoc,
      ih (ha.2 u hu) hr, asked_cons t hu, ← List.append_assoc, hstep, List.append_assoc]

/-- Text alone is printed as if it came at once. -/
theorem takes_text (T : Term) {ins : List TermInput} (h : ∀ i ∈ ins, i = .text i.bytes) :
    T.takes ins = T.take (.text (printed ins)) := by
  induction ins generalizing T with
  | nil => rfl
  | cons i ins ih =>
    obtain ⟨hi, hins⟩ := List.forall_mem_cons.mp h
    have hcons : T.takes (i :: ins) = (T.take i).takes ins := rfl
    rw [hcons, ih (T.take i) hins, hi]
    simp [printed, Term.take, Term.print, Screen.prints, TermInput.bytes]

end Text

section Runs

variable {b : BootIn} {es₀ : List Event} {es : List WriteEvent} {s : Kernel} {y : Writes}

/-- Terminals 0 and 1 write, and a key is typed on terminal 0 before its second byte. -/
def writesOnTwo : List WriteEvent :=
  [.begins 1 0x8000000 (memory [(0, lit ['h', 'i'])]) 2, .puts (ch 'h'),
    .other (.tick 0 0 sampleExec), .begins 1 0x8000000 (memory [(0, lit ['x'])]) 1, .puts (ch 'x'),
    .other (.tick 0 0 sampleExec), .other (.tick 0 0 sampleExec)] ++
    (sampleKeys [0x1E]).map .other ++ [.puts (ch 'i')]

end Runs

end Mp3
