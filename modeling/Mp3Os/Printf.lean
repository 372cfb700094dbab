import Mp3Os.Console

/-!
# `printf` and its format

A text without `%` is printed as it is (`printfGo_literal`). A conversion `%s` reads the string
that its argument points to, and nothing else in `printf` can fault: `stringArgs` are the
arguments that the format reads as strings, and `printf` faults exactly if one of them cannot be
read.
-/

namespace Mp3

mutual
/-- The indices of the arguments that the format reads as strings, from the byte `pos` on. -/
def stringArgsGo (format : Nat → UInt8) : Nat → Nat → Nat → List Nat
  | 0, _, _ => []
  | fuel + 1, pos, arg =>
    if format pos = 0 then []
    else if format pos = ch '%' then stringArgsConv format fuel (pos + 1) arg
    else stringArgsGo format fuel (pos + 1) arg

/-- The same from the byte after a `%`. -/
def stringArgsConv (format : Nat → UInt8) : Nat → Nat → Nat → List Nat
  | 0, _, _ => []
  | fuel + 1, pos, arg =>
    if format pos = ch '%' then stringArgsGo format fuel (pos + 1) arg
    else if format pos = ch '#' then stringArgsConv format fuel (pos + 1) arg
    else if format pos = ch 'x' ∨ format pos = ch 'u' ∨ format pos = ch 'd' ∨
        format pos = ch 'c' then stringArgsGo format fuel (pos + 1) (arg + 1)
    else if format pos = ch 's' then arg :: stringArgsGo format fuel (pos + 1) (arg + 1)
    else stringArgsGo format fuel (pos + 1) arg
end

/-- The arguments that `printf(format, ...)` reads as strings. -/
def stringArgs (format : Nat → UInt8) : List Nat := stringArgsGo format 4294967296 0 0

/-- The string that argument `k` points to can be read. -/
def Stack.Reads (st : Stack) (k : Nat) : Prop := (st.string (st.word k)).isSome

instance (st : Stack) (k : Nat) : Decidable (st.Reads k) := inferInstanceAs (Decidable (_ = true))

section Format

variable {format : Nat → UInt8} {st : Stack}

/-- A text without `%` is printed as it is. -/
theorem printfGo_literal {text : List UInt8} {fuel pos : Nat} (arg : Nat)
    (hf : ∀ i, i < text.length → format (pos + i) = text.getD i 0)
    (hend : format (pos + text.length) = 0) (hne : ∀ b ∈ text, b ≠ 0 ∧ b ≠ ch '%')
    (hfuel : text.length < fuel) : printfGo format st fuel pos arg = ⟨text, false⟩ := by
  induction text generalizing fuel pos with
  | nil =>
    obtain ⟨fuel, rfl⟩ : ∃ n, fuel = n + 1 := ⟨fuel - 1, by omega⟩
    rw [List.length_nil, Nat.add_zero] at hend
    rw [printfGo, if_pos hend]
  | cons b text ih =>
    obtain ⟨fuel, rfl⟩ : ∃ n, fuel = n + 1 := ⟨fuel - 1, by omega⟩
    have hb : format pos = b := hf 0 (Nat.succ_pos _)
    obtain ⟨h0, hp⟩ := hne b List.mem_cons_self
    rw [printfGo, if_neg (by rwa [hb]), if_neg (by rwa [hb]), ih _ _ _ _, hb]
    · rfl
    · intro i hi
      have := hf (i + 1) (Nat.succ_lt_succ hi)
      rw [Nat.add_right_comm, Nat.add_assoc]
      exact this
    · rw [Nat.add_assoc, Nat.add_comm 1]
      exact hend
    · exact fun c hc => hne c (List.mem_cons_of_mem b hc)
    · exact Nat.lt_of_succ_lt_succ hfuel

/-- `printf` of a text without `%`. -/
theorem printfOut_literal {text : List UInt8}
    (hf : ∀ i, i < text.length → format i = text.getD i 0) (hend : format text.length = 0)
    (hne : ∀ b ∈ text, b ≠ 0 ∧ b ≠ ch '%') (hlen : text.length < 4294967296) :
    printfOut format st = ⟨text, false⟩ :=
  printfGo_literal 0 (fun i hi => by rw [Nat.zero_add, hf i hi]) (by rwa [Nat.zero_add]) hne hlen

/-- The two loops of `printf` fault exactly at a string that cannot be read. -/
theorem printfGo_faults (fuel : Nat) : (∀ pos arg, (printfGo format st fuel pos arg).faults = false ↔
      ∀ k ∈ stringArgsGo format fuel pos arg, st.Reads k) ∧
    ∀ pos arg alternate, (printfConv format st fuel pos arg alternate).faults = false ↔
      ∀ k ∈ stringArgsConv format fuel pos arg, st.Reads k := by
  induction fuel with
  | zero => simp [printfGo, printfConv, stringArgsGo, stringArgsConv]
  | succ fuel ih =>
    obtain ⟨hgo, hconv⟩ := ih
    have hbefore : ∀ (more : List UInt8) (o : Output), (o.before more).faults = o.faults :=
      fun _ _ => rfl
    constructor
    · intro pos arg
      rw [printfGo, stringArgsGo]
      split_ifs
      · simp
      · exact hconv _ _ _
      · rw [hbefore]
        exact hgo _ _
    · intro pos arg alternate
      rw [printfConv, stringArgsConv]
      dsimp only
      by_cases hpct : format pos = ch '%'
      · rw [if_pos hpct, if_pos hpct, hbefore]
        exact hgo _ _
      rw [if_neg hpct, if_neg hpct]
      by_cases halt : format pos = ch '#'
      · rw [if_pos halt, if_pos halt]
        exact hconv _ _ _
      rw [if_neg halt, if_neg halt]
      by_cases hnum : format pos = ch 'x' ∨ format pos = ch 'u' ∨ format pos = ch 'd' ∨
          format pos = ch 'c'
      · -- the conversions that print their argument itself
        rw [if_pos hnum]
        have harg : ∀ more, ((printfGo format st fuel (pos + 1) (arg + 1)).before more).faults =
            false ↔ ∀ k ∈ stringArgsGo format fuel (pos + 1) (arg + 1), st.Reads k :=
          fun more => hgo _ _
        split_ifs <;> first | exact harg _ | (exfalso; grind)
      rw [if_neg hnum]
      simp only [not_or] at hnum
      obtain ⟨hx, hu, hd, hc⟩ := hnum
      rw [if_neg hx, if_neg hu, if_neg hd, if_neg hc]
      by_cases hs : format pos = ch 's'
      · rw [if_pos hs, if_pos hs, List.forall_mem_cons]
        cases hread : st.string (st.word arg) with
        | none => simp [Stack.Reads, hread]
        | some text =>
          dsimp only
          rw [hbefore, hgo]
          simp [Stack.Reads, hread]
      · rw [if_neg hs, if_neg hs]
        exact hgo _ _

/-- **`printf` faults** exactly if the format reads a string that cannot be read. -/
theorem printfOut_faults :
    (printfOut format st).faults = false ↔ ∀ k ∈ stringArgs format, st.Reads k :=
  (printfGo_faults _).1 0 0

end Format

end Mp3
