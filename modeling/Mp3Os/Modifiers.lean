import Mathlib.Data.Fintype.Basic
import Mp3Os.Io

/-!
# The modifier keys (`flag_arr` of `keyboard.c`)

A key that is held sends its make code again and again, and its break code once when it is
released. `KeyLog` counts the make codes of each modifier since the key was last up, so a key is
held exactly if its count is not 0, and all make codes of caps lock.

Shift is stored as a level, Ctrl and Alt are counted up and down. As long as each press of Ctrl
and Alt sends a single make code before its break code, the flags are those of `Flags.Exact`; the
first break code after a repeat leaves the flag set while the key is up.
-/

namespace Mp3

/-- The keys that are tracked while they are held. -/
inductive Modifier where
  | lshift
  | rshift
  | ctrl
  | alt
  deriving DecidableEq

instance : Fintype Modifier := ⟨{.lshift, .rshift, .ctrl, .alt}, fun m => by cases m <;> decide⟩

namespace Modifier

def makeCode : Modifier → Nat
  | lshift => 0x2A
  | rshift => 0x36
  | ctrl => 0x1D
  | alt => 0x38

def breakCode : Modifier → Nat
  | lshift => 0xAA
  | rshift => 0xB6
  | ctrl => 0x9D
  | alt => 0xB8

/-- The driver counts the codes of this key. -/
def Counted (m : Modifier) : Prop := m = ctrl ∨ m = alt

instance (m : Modifier) : Decidable m.Counted := inferInstanceAs (Decidable (_ ∨ _))

/-- The flag after `n` make codes without a break code. -/
def value (m : Modifier) (n : Nat) : Int := if m.Counted then n else if n = 0 then 0 else 1

end Modifier

/-- The entry of `flag_arr` for a key. -/
def Flags.of (f : Flags) : Modifier → Int
  | .lshift => f.lshift
  | .rshift => f.rshift
  | .ctrl => f.ctrl
  | .alt => f.alt

/-- The scan code that the keyboard sent. -/
def Event.code : Event → Option Nat
  | .key c _ | .keyFault c .. => some c.toNat
  | _ => none

/-- The make codes of each key since it was last up, and those of caps lock. -/
structure KeyLog where
  makes : Modifier → Nat
  capsMakes : Nat

namespace KeyLog

variable (g : KeyLog)

/-- The keyboard sends a code. -/
def send (c : Nat) : KeyLog where
  makes m := if c = m.makeCode then g.makes m + 1 else if c = m.breakCode then 0 else g.makes m
  capsMakes := if c = 0x3A then g.capsMakes + 1 else g.capsMakes

/-- The key is down. -/
def Held (m : Modifier) : Prop := g.makes m ≠ 0

instance (m : Modifier) : Decidable (g.Held m) := inferInstanceAs (Decidable (_ ≠ _))

end KeyLog

/-- The kernel with the log of the keys. -/
def typing : Lts (Kernel × KeyLog) Event :=
  kernel.withGhost fun g _ e _ => (e.code.map g.send).getD g

/-- No key is pressed at boot. -/
def typingBoot (b : BootIn) : Kernel × KeyLog := (boot b, ⟨fun _ => 0, 0⟩)

/-- A key that is released was held. -/
def ReleasesHeld (p : Kernel × KeyLog) (e : Event) : Prop :=
  ∀ m : Modifier, e.code = some m.breakCode → p.2.Held m

instance (p : Kernel × KeyLog) (e : Event) : Decidable (ReleasesHeld p e) :=
  inferInstanceAs (Decidable (∀ _, _))

/-- Ctrl or Alt is released after a single make code. -/
def ReleasesUnrepeated (p : Kernel × KeyLog) (e : Event) : Prop :=
  ∀ m : Modifier, m.Counted → e.code = some m.breakCode → p.2.makes m = 1

instance (p : Kernel × KeyLog) (e : Event) : Decidable (ReleasesUnrepeated p e) :=
  inferInstanceAs (Decidable (∀ _, _))

/-- The flags say which keys are held, and the caps flag is the parity of its make codes. -/
def FlagsTrue (p : Kernel × KeyLog) : Prop :=
  (∀ m, p.1.flags.of m ≠ 0 ↔ p.2.Held m) ∧ p.1.flags.caps = (p.2.capsMakes % 2 : Nat)

instance (p : Kernel × KeyLog) : Decidable (FlagsTrue p) := inferInstanceAs (Decidable (_ ∧ _))

/-- The flags when no press of Ctrl or Alt was lost. -/
structure Flags.Exact (f : Flags) (g : KeyLog) : Prop where
  of : ∀ m, f.of m = m.value (g.makes m)
  caps : f.caps = (g.capsMakes % 2 : Nat)

/-! ## The flags over a step -/

namespace Kernel

variable {s : Kernel}

theorem switchTerminal_flags (d : Int) : (s.switchTerminal d).flags = s.flags := by
  unfold switchTerminal
  split_ifs <;> rfl

theorem prepareShell_flags : s.prepareShell.flags = s.flags :=
  switchTerminal_flags (s := s) s.pitCount

theorem upKey_flags (st : Stack) : (s.upKey st).state.flags = s.flags := by
  unfold upKey
  dsimp only
  split_ifs <;> rfl

theorem editKey_flags (c : Nat) : (s.editKey c).state.flags = s.flags := by
  unfold editKey
  split_ifs
  · rfl
  · unfold backKey
    split <;> rfl
  · rfl
  · exact switchTerminal_flags _
  · simp only [charKey]
    split_ifs <;> rfl
  · rfl

/-- A key changes the flags in `modifierKey` only. -/
theorem keyboardHandler_flags (c : Nat) (st : Stack) :
    (s.keyboardHandler c st).state.flags = (modifierKey s.flags c).getD s.flags := by
  unfold keyboardHandler
  split
  · rename_i f hf
    rw [hf]
    rfl
  · rename_i hm
    have hkey : (if c = 0x48 then s.beginKey.upKey st else s.beginKey.editKey c).state.flags =
        s.flags := by
      split
      · exact upKey_flags st
      · exact editKey_flags c
    dsimp only
    split
    all_goals
      rename_i u hu
      rw [hu] at hkey
      rw [hm]
      exact hkey

end Kernel

/-- Without a key the flags stay. -/
theorem flags_of_no_key {s s' : Kernel} {e : Event} (hc : e.code = none) (h : s.step e = some s') :
    s'.flags = s.flags := by
  have hio : s'.io.flags = s.io.flags := by
    cases ioStep h with
    | same _ hs => rw [hs]
    | prints text _ hs => rw [hs]; rfl
    | tick _ hs => rw [hs]; rfl
    | tickLast _ hs =>
      rw [hs]
      exact Kernel.switchTerminal_flags (s := s.io.leaveTerminal) 0
    | tickFail _ hs =>
      rw [hs]
      exact Kernel.prepareShell_flags (s := s.io.leaveTerminal)
    | tickLaunch _ hs =>
      rw [hs]
      exact Kernel.prepareShell_flags (s := s.io.leaveTerminal)
    | key => cases hc
    | keyFault => cases hc
    | read hr =>
      obtain ⟨-, _, _, -, -, -, -, hs⟩ := terminalRead_eq hr
      rw [hs]
      rfl
    | vidmap vram _ hs => rw [hs]; rfl
    | vidmapFault vram text _ hs => rw [hs]; rfl
  exact hio

/-- The scan code decides the flags. -/
theorem flags_step {s s' : Kernel} {e : Event} (h : s.step e = some s') :
    s'.flags = (e.code.bind (modifierKey s.flags)).getD s.flags := by
  cases hc : e.code with
  | none => exact flags_of_no_key hc h
  | some c =>
    cases e with
    | key c st =>
      cases hc
      have hk := Kernel.keyboardHandler_flags (s := s) c.toNat st
      simp only [Kernel.step] at h
      split at h
      · rename_i hr
        cases h
        rw [hr] at hk
        exact hk
      · cases h
    | keyFault c st xs =>
      cases hc
      have hk := Kernel.keyboardHandler_flags (s := s) c.toNat st
      simp only [Kernel.step] at h
      split at h
      · cases h
      · rename_i hr
        rw [hr] at hk
        obtain ⟨text, ht⟩ := exception_io h
        exact (congrArg Kernel.flags ht).trans hk
    | _ => cases hc

/-! ## The flags over a run -/

/-- What a code does to the flag of a key. -/
theorem modifierKey_of (f : Flags) (c : Nat) (m : Modifier) :
    ((modifierKey f c).getD f).of m =
      if c = m.makeCode then if m.Counted then f.of m + 1 else 1
      else if c = m.breakCode then if m.Counted then f.of m - 1 else 0
      else f.of m := by
  unfold modifierKey
  cases m <;> simp only [Modifier.makeCode, Modifier.breakCode, Flags.of, Modifier.Counted] <;> grind

theorem modifierKey_caps (f : Flags) (c : Nat) :
    ((modifierKey f c).getD f).caps =
      if c = 0x3A then if f.caps ≠ 0 then 0 else 1 else f.caps := by
  unfold modifierKey
  grind

theorem Modifier.makeCode_ne_breakCode (m : Modifier) : m.makeCode ≠ m.breakCode := by
  cases m <;> decide

theorem Modifier.value_ne_zero (m : Modifier) (n : Nat) : m.value n ≠ 0 ↔ n ≠ 0 := by
  unfold Modifier.value
  split_ifs <;> simp_all

theorem Flags.Exact.flagsTrue {s : Kernel} {g : KeyLog} (h : s.flags.Exact g) :
    FlagsTrue (s, g) := by
  refine ⟨fun m => ?_, h.caps⟩
  rw [h.of m]
  exact Modifier.value_ne_zero m _

section Codes

variable {f : Flags} {g : KeyLog} {c : Nat}

/-- A code keeps the flags exact, unless it releases Ctrl or Alt after a repeat. -/
theorem Flags.Exact.send (h : f.Exact g)
    (hc : ∀ m : Modifier, m.Counted → c = m.breakCode → g.makes m = 1) :
    ((modifierKey f c).getD f).Exact (g.send c) := by
  constructor
  · intro m
    rw [modifierKey_of, h.of m]
    simp only [KeyLog.send]
    by_cases hmake : c = m.makeCode
    · rw [if_pos hmake, if_pos hmake]
      rw [Modifier.value, Modifier.value]
      by_cases hm : m.Counted
      · rw [if_pos hm, if_pos hm, if_pos hm]
        push_cast
        rfl
      · rw [if_neg hm, if_neg hm, if_neg (Nat.succ_ne_zero _)]
    · rw [if_neg hmake, if_neg hmake]
      by_cases hbreak : c = m.breakCode
      · rw [if_pos hbreak, if_pos hbreak]
        simp only [Modifier.value]
        split_ifs with hm
        · rw [hc m hm hbreak]; rfl
        · rfl
      · rw [if_neg hbreak, if_neg hbreak]
  · rw [modifierKey_caps, h.caps]
    simp only [KeyLog.send]
    split_ifs <;> omega

/-- A release of Ctrl or Alt after a repeat leaves the flag set. -/
theorem Flags.Exact.release_repeated (h : f.Exact g) {m : Modifier} (hm : m.Counted)
    (hc : c = m.breakCode) (h1 : g.makes m ≠ 1) :
    ((modifierKey f c).getD f).of m ≠ 0 ∧ ¬ (g.send c).Held m := by
  have hne : ¬ c = m.makeCode := fun hmk => m.makeCode_ne_breakCode (hmk.symm.trans hc)
  have hval : f.of m = g.makes m := by
    rw [h.of m, Modifier.value, if_pos hm]
  unfold KeyLog.Held
  rw [modifierKey_of, if_neg hne, if_pos hc, if_pos hm, hval]
  simp only [KeyLog.send]
  rw [if_neg hne, if_pos hc]
  exact ⟨by omega, by simp⟩

end Codes

/-- The step of the log and of the flags. -/
theorem typing_step {p q : Kernel × KeyLog} {e : Event} (h : typing.step p e = some q) :
    (e.code = none ∧ q.1.flags = p.1.flags ∧ q.2 = p.2) ∨
    ∃ c, e.code = some c ∧ q.1.flags = (modifierKey p.1.flags c).getD p.1.flags ∧
      q.2 = p.2.send c := by
  obtain ⟨s, g⟩ := p
  obtain ⟨s', g'⟩ := q
  obtain ⟨hs, rfl⟩ := Lts.withGhost_step.mp h
  have hf := flags_step hs
  cases hc : e.code with
  | none =>
    rw [hc] at hf
    exact .inl ⟨rfl, hf, rfl⟩
  | some c =>
    rw [hc] at hf
    exact .inr ⟨c, rfl, hf, rfl⟩

/-- **Modifier tracking.** In a run from boot the flags are true in every state exactly if Ctrl
and Alt are released after a single make code each time. -/
theorem flagsTrue_iff {b : BootIn} {es : List Event} {q : Kernel × KeyLog}
    (hr : typing.run (typingBoot b) es = some q) :
    typing.Always FlagsTrue (typingBoot b) es ↔
      typing.Along ReleasesUnrepeated (typingBoot b) es := by
  refine Lts.always_iff_along_of_inv (I := fun p => p.1.flags.Exact p.2) ?_
    (fun _ h => h.flagsTrue) ?_ ⟨fun m => by cases m <;> rfl, rfl⟩ hr
  · intro p e q h hg hs
    obtain ⟨-, hf, hl⟩ | ⟨c, hc, hf, hl⟩ := typing_step hs
    · rw [hf, hl]
      exact h
    · rw [hf, hl]
      exact h.send fun m hm hcm => hg m hm (by rw [hc, hcm])
  · intro p e q h hg hs htrue
    -- the code that the guard forbids releases Ctrl or Alt
    unfold ReleasesUnrepeated at hg
    push Not at hg
    obtain ⟨m, hm, hcode, h1⟩ := hg
    obtain ⟨hnone, -, -⟩ | ⟨c, hc, hf, hl⟩ := typing_step hs
    · rw [hnone] at hcode
      cases hcode
    · have hcm : c = m.breakCode := Option.some.inj (hc.symm.trans hcode)
      have hbad := h.release_repeated hm hcm h1
      rw [← hf, ← hl] at hbad
      exact hbad.2 ((htrue.1 m).mp hbad.1)

/-- A repeated shift with a letter, caps lock, and Ctrl and Alt without a repeat. -/
theorem flagsTrue_sample :
    typing.Along ReleasesHeld (typingBoot sampleBoot)
      (sampleKeys [0x2A, 0x2A, 0x1E, 0xAA, 0x3A, 0x1D, 0x26, 0x9D, 0x38, 0x3C, 0xB8]) ∧
    typing.Always FlagsTrue (typingBoot sampleBoot)
      (sampleKeys [0x2A, 0x2A, 0x1E, 0xAA, 0x3A, 0x1D, 0x26, 0x9D, 0x38, 0x3C, 0xB8]) := by
  refine ⟨by decide +kernel, ?_⟩
  have hr : (typing.run (typingBoot sampleBoot)
      (sampleKeys [0x2A, 0x2A, 0x1E, 0xAA, 0x3A, 0x1D, 0x26, 0x9D, 0x38, 0x3C, 0xB8])).isSome := by
    decide +kernel
  obtain ⟨q, hq⟩ := Option.isSome_iff_exists.mp hr
  exact (flagsTrue_iff hq).mpr (by decide +kernel)

/-- Ctrl repeats once and is released: its flag stays set. -/
theorem repeated_ctrl_sticks :
    typing.Along ReleasesHeld (typingBoot sampleBoot) (sampleKeys [0x1D, 0x1D, 0x9D]) ∧
    ¬ typing.Always FlagsTrue (typingBoot sampleBoot) (sampleKeys [0x1D, 0x1D, 0x9D]) := by
  refine ⟨by decide +kernel, fun h => ?_⟩
  have hr : ((typing.run (typingBoot sampleBoot) (sampleKeys [0x1D, 0x1D, 0x9D])).map fun q =>
      (q.1.flags.ctrl, decide (FlagsTrue q))) = some (1, false) := by decide +kernel
  obtain ⟨q, hq, hv⟩ := Option.map_eq_some_iff.mp hr
  exact of_decide_eq_false (Prod.mk.inj hv).2 (h.last hq)

end Mp3
