import Mathlib.Tactic.IntervalCases
import Mp3Os.Syscall

/-!
# The rate register (`rtc.c`)

`rtcWrite` works on register A alone. Here the same routine runs against the chip: port 0x70
selects a register, port 0x71 reads or writes the selected one, and a read moves the selection to
register D.

The chip divides 32768 Hz, so rate `r` gives `32768 >> (r - 1)` Hz. The loop of `rtc_write`
counts the doublings from the request `2^k` up to 32768, which are `15 - k`; the divider that
gives `2^k` is one more.
-/

namespace Mp3

/-- The clock chip behind ports 0x70 and 0x71, with the port writes so far. -/
structure Cmos where
  index : UInt8
  regs : UInt8 → UInt8
  writes : List (UInt8 × Nat)

namespace Cmos

/-- `outb(data, port)`. Bit 7 of the index port masks the NMI. -/
def outb (c : Cmos) (data : UInt8) (port : Nat) : Cmos :=
  let c := { c with writes := c.writes ++ [(data, port)] }
  if port = 0x70 then { c with index := data &&& 0x7F }
  else if port = 0x71 then { c with regs := Function.update c.regs c.index data }
  else c

/-- `inb(RTC_CMD)`. -/
def inb (c : Cmos) : UInt8 × Cmos := (c.regs c.index, { c with index := 0x0D })

/-- Register A. -/
def regA (c : Cmos) : UInt8 := c.regs 0x0A

end Cmos

/-- The file-scope `rate` and the chip. -/
structure RtcDev where
  rate : Nat
  cmos : Cmos

/-- What the kernel's state keeps of it. -/
def RtcDev.rtc (d : RtcDev) : Rtc := ⟨d.rate, d.cmos.regA⟩

/-- The rate that `rtc_write` computes for an accepted frequency. -/
def clampRate (inputFreq : Int) : Nat :=
  let rate := rateLoop 32 inputFreq 0
  let rate := if rate < 4 then 4 else if rate > 15 then 15 else rate
  rate % 16

/-- `rtc_write` with its port accesses. -/
def rtcWriteDev (d : RtcDev) (inputFreq : Int) : Int × RtcDev :=
  if ¬ rtcFreqOk inputFreq then (-1, d)
  else
    let rate := clampRate inputFreq
    let (prev, c) := (d.cmos.outb 0x8A 0x70).inb
    let c := c.outb 0x8A 0x70
    (0, ⟨rate, c.outb ((prev &&& 0xF0) ||| UInt8.ofNat rate) 0x71⟩)

/-- The chip's law: the frequency of a rate value. -/
def rateFreq (rate : Nat) : Nat := 32768 >>> (rate - 1)

/-- The powers of two from 2 to 1024. -/
def PowerRequest (freq : Int) : Prop := ∃ k, 1 ≤ k ∧ k ≤ 10 ∧ freq = ((2 ^ k : Nat) : Int)

/-- What a request promises: it is accepted exactly for the powers of two from 2 to 1024 and then
runs the chip at that frequency, or it is refused without a port access. -/
def RateKept (d : RtcDev) (freq : Int) : Prop :=
  (PowerRequest freq ∧ (rtcWriteDev d freq).1 = 0 ∧
    (rateFreq ((rtcWriteDev d freq).2.cmos.regA &&& 0x0F).toNat : Int) = freq ∧
    (rtcWriteDev d freq).2.cmos.regA &&& 0xF0 = d.cmos.regA &&& 0xF0) ∨
  (¬ PowerRequest freq ∧ rtcWriteDev d freq = (-1, d))

/-! ## The two models agree -/

/-- The port accesses replace register A. -/
theorem regA_accesses (c : Cmos) (rate : UInt8) :
    let r := (c.outb 0x8A 0x70).inb
    ((r.2.outb 0x8A 0x70).outb ((r.1 &&& 0xF0) ||| rate) 0x71).regA =
      (c.regA &&& 0xF0) ||| rate := by
  have hport : ¬ 0x71 = 0x70 := by decide
  have hmask : (0x8A : UInt8) &&& 0x7F = 0x0A := by decide
  simp only [Cmos.outb, Cmos.inb, Cmos.regA, ↓reduceIte, if_neg hport, hmask]
  rw [Function.update_self]

/-- The kernel's `rtcWrite` is what happens to register A. -/
theorem rtcWriteDev_rtc (d : RtcDev) (freq : Int) :
    ((rtcWriteDev d freq).1, (rtcWriteDev d freq).2.rtc) = rtcWrite d.rtc freq := by
  unfold rtcWriteDev rtcWrite
  split
  · rfl
  · simp only [RtcDev.rtc, clampRate]
    rw [regA_accesses]

/-! ## The loop counts doublings -/

/-- The test of `rtc_write` accepts the powers of two from 2 to 1024. -/
theorem rtcFreqOk_iff (freq : Int) : rtcFreqOk freq ↔ PowerRequest freq := by
  constructor
  · intro h
    rcases h with h | h | h | h | h | h | h | h | h | h
    · exact ⟨1, by decide, by decide, h⟩
    · exact ⟨2, by decide, by decide, h⟩
    · exact ⟨3, by decide, by decide, h⟩
    · exact ⟨4, by decide, by decide, h⟩
    · exact ⟨5, by decide, by decide, h⟩
    · exact ⟨6, by decide, by decide, h⟩
    · exact ⟨7, by decide, by decide, h⟩
    · exact ⟨8, by decide, by decide, h⟩
    · exact ⟨9, by decide, by decide, h⟩
    · exact ⟨10, by decide, by decide, h⟩
  · rintro ⟨k, h1, h10, rfl⟩
    interval_cases k <;> decide

/-- From `2^(15 - n)` the loop takes `n` doublings to pass 16384. -/
theorem rateLoop_pow (n fuel rate : Nat) (hn : n ≤ 15) (hf : n ≤ fuel) :
    rateLoop fuel ((2 ^ (15 - n) : Nat) : Int) rate = rate + n := by
  induction n generalizing fuel rate with
  | zero =>
    cases fuel with
    | zero => rfl
    | succ fuel => rw [rateLoop, if_neg (by decide)]; rfl
  | succ n ih =>
    obtain ⟨fuel, rfl⟩ : ∃ m, fuel = m + 1 := ⟨fuel - 1, by omega⟩
    have hle : 2 ^ (15 - (n + 1)) ≤ 16384 :=
      Nat.pow_le_pow_right (n := 2) (j := 14) (by decide) (by omega)
    have hpow : 2 ^ (15 - n) = 2 ^ (15 - (n + 1)) * 2 := by
      rw [← Nat.pow_succ]
      congr 1
      omega
    have hnext := ih fuel (rate + 1) (by omega) (by omega)
    rw [hpow, Int.natCast_mul] at hnext
    have hle' : ((2 ^ (15 - (n + 1)) : Nat) : Int) ≤ 16384 := Int.ofNat_le.mpr hle
    rw [rateLoop, if_pos hle']
    refine hnext.trans ?_
    omega

/-- The clamp and the mask change nothing for an accepted request. -/
theorem clampRate_pow {k : Nat} (h1 : 1 ≤ k) (h10 : k ≤ 10) :
    clampRate ((2 ^ k : Nat) : Int) = 15 - k := by
  have h := rateLoop_pow (15 - k) 32 0 (by omega) (by omega)
  rw [show 15 - (15 - k) = k by omega, Nat.zero_add] at h
  unfold clampRate
  simp only [h]
  rw [if_neg (by omega), if_neg (by omega), Nat.mod_eq_of_lt (by omega)]

/-- The programmed rate runs the chip at twice the request. -/
theorem rateFreq_clampRate {k : Nat} (h1 : 1 ≤ k) (h10 : k ≤ 10) :
    rateFreq (clampRate ((2 ^ k : Nat) : Int)) = 2 * 2 ^ k := by
  rw [clampRate_pow h1 h10]
  interval_cases k <;> rfl

/-- The low nibble of register A is the rate. -/
theorem regA_nibble (prev : UInt8) {rate : Nat} (h : rate < 16) :
    (((prev &&& 0xF0) ||| UInt8.ofNat rate) &&& 0x0F).toNat = rate := by
  have hdisj : (0xF0 : UInt8).toNat &&& (0x0F : UInt8).toNat = 0 := by decide
  rw [UInt8.toNat_and, UInt8.toNat_or, UInt8.toNat_and, Nat.and_or_distrib_right, Nat.and_assoc,
    hdisj, Nat.and_zero, Nat.zero_or]
  interval_cases rate <;> rfl

/-- An accepted request programs twice its frequency. -/
theorem rtcWriteDev_doubles (d : RtcDev) {freq : Int} (h : PowerRequest freq) :
    (rateFreq ((rtcWriteDev d freq).2.cmos.regA &&& 0x0F).toNat : Int) = 2 * freq := by
  have hok := (rtcFreqOk_iff freq).mpr h
  obtain ⟨k, h1, h10, rfl⟩ := h
  unfold rtcWriteDev
  rw [if_neg (not_not_intro hok)]
  simp only
  rw [regA_accesses, regA_nibble _ (by rw [clampRate_pow h1 h10]; omega), rateFreq_clampRate h1 h10]
  push_cast
  rfl

/-- `rtc_write` keeps its promise exactly when it refuses: no accepted request gets its frequency. -/
theorem rateKept_iff (d : RtcDev) (freq : Int) : RateKept d freq ↔ ¬ PowerRequest freq := by
  constructor
  · rintro (⟨hp, -, hf, -⟩ | ⟨hn, -⟩)
    · rw [rtcWriteDev_doubles d hp] at hf
      obtain ⟨k, -, -, rfl⟩ := hp
      have hpos : 0 < 2 ^ k := Nat.two_pow_pos k
      omega
    · exact hn
  · intro hn
    refine .inr ⟨hn, ?_⟩
    unfold rtcWriteDev
    rw [if_pos (fun h => hn ((rtcFreqOk_iff freq).mp h))]

/-- A request for 2 Hz, the one `rtc_open` makes, is answered with 0 and programs 4 Hz. -/
theorem rtcWriteDev_two :
    (rtcWriteDev ⟨0, ⟨0, fun _ => 0x26, []⟩⟩ 2).1 = 0 ∧
    rateFreq ((rtcWriteDev ⟨0, ⟨0, fun _ => 0x26, []⟩⟩ 2).2.cmos.regA &&& 0x0F).toNat = 4 ∧
    ¬ RateKept ⟨0, ⟨0, fun _ => 0x26, []⟩⟩ 2 := by
  have h2 : PowerRequest 2 := ⟨1, by decide, by decide, rfl⟩
  refine ⟨by decide, by decide, ?_⟩
  rw [rateKept_iff]
  exact not_not_intro h2

end Mp3
