import Mp3Os.Itoa

/-!
# What `printf` makes of its format

A format is a list of pieces: characters that are printed as they are, and conversions. `rendering`
is what the pieces print, with numerals as they should be, and `printf` prints that (`printfGo_eq`).

`printf` takes its step to the next byte after each conversion, also when the byte it looked at was
the NUL. A format that ends after a `%`, or after `%` and some `#`, takes it past its end:
`complete` says that a format does not. `printfReadsGo` are the bytes of the format that `printf`
reads, and `printf_scans_iff` says that they end with the NUL exactly for a complete format.
-/

namespace Mp3

/-! ## Pieces -/

/-- A piece of a format. -/
inductive Piece where
  | literal (c : UInt8)
  | percent
  | hex (alternate : Bool)
  | unsigned
  | signed
  | char
  | string
  | unknown

/-- The conversion of a letter. -/
def Piece.ofChar (alternate : Bool) (c : UInt8) : Piece :=
  if c = ch '%' then .percent
  else if c = ch 'x' then .hex alternate
  else if c = ch 'u' then .unsigned
  else if c = ch 'd' then .signed
  else if c = ch 'c' then .char
  else if c = ch 's' then .string
  else .unknown

/-- How many arguments a piece takes. -/
def Piece.takes : Piece → Nat
  | .literal _ => 0
  | .percent => 0
  | .unknown => 0
  | _ => 1

/-- What a piece prints, with the argument `word`; `none` if its string cannot be read. -/
def Piece.text (st : Stack) (word : UInt32) : Piece → Option (List UInt8)
  | .literal c => some [c]
  | .percent => some [ch '%']
  | .hex false => some (numeral 16 word.toNat)
  | .hex true => some (fixedNumeral 16 8 word.toNat)
  | .unsigned => some (numeral 10 word.toNat)
  | .signed => some (intNumeral 10 word.toInt32.toInt)
  | .char => some [word.toUInt8]
  | .string => st.string word
  | .unknown => some []

mutual
/-- The pieces of a format. -/
def pieces : List UInt8 → List Piece
  | [] => []
  | c :: format => if c = ch '%' then conversion false format else .literal c :: pieces format

/-- The pieces from the byte after a `%` on. -/
def conversion (alternate : Bool) : List UInt8 → List Piece
  | [] => []
  | c :: format =>
    if c = ch '#' then conversion true format else .ofChar alternate c :: pieces format
end

/-- What the pieces print, with the arguments from `arg` on; `none` if they do not match. -/
def rendering (st : Stack) : List Piece → Nat → Option (List UInt8)
  | [], _ => some []
  | p :: ps, arg =>
    (p.text st (st.word arg)).bind fun text => (rendering st ps (arg + p.takes)).map (text ++ ·)

mutual
/-- The format does not end inside a conversion. -/
def complete : List UInt8 → Bool
  | [] => true
  | c :: format => if c = ch '%' then completeConv format else complete format

/-- The same from the byte after a `%` on. -/
def completeConv : List UInt8 → Bool
  | [] => false
  | c :: format => if c = ch '#' then completeConv format else complete format
end

/-! ## The bytes that are read -/

mutual
/-- The format bytes that the loop of `printf` reads, from `pos` on. -/
def printfReadsGo (format : Nat → UInt8) (st : Stack) : Nat → Nat → Nat → List Nat
  | 0, _, _ => []
  | fuel + 1, pos, arg =>
    pos :: (
      if format pos = 0 then []
      else if format pos = ch '%' then printfReadsConv format st fuel (pos + 1) arg
      else printfReadsGo format st fuel (pos + 1) arg)

/-- The same in `format_char_switch`. -/
def printfReadsConv (format : Nat → UInt8) (st : Stack) : Nat → Nat → Nat → List Nat
  | 0, _, _ => []
  | fuel + 1, pos, arg =>
    pos :: (
      if format pos = ch '%' then printfReadsGo format st fuel (pos + 1) arg
      else if format pos = ch '#' then printfReadsConv format st fuel (pos + 1) arg
      else if format pos = ch 'x' ∨ format pos = ch 'u' ∨ format pos = ch 'd' ∨
          format pos = ch 'c' then printfReadsGo format st fuel (pos + 1) (arg + 1)
      else if format pos = ch 's' then
        match st.string (st.word arg) with
        | none => []
        | some _ => printfReadsGo format st fuel (pos + 1) (arg + 1)
      else printfReadsGo format st fuel (pos + 1) arg)
end

/-! ## One conversion -/

section Conversion

variable {format : Nat → UInt8} {st : Stack} {word : UInt32}

/-- The two readings of a word as a signed number. -/
theorem i32_word (word : UInt32) : i32 word.toNat = word.toInt32.toInt := by
  have hlt := word.toNat_lt
  have htoInt : word.toInt32.toInt = word.toBitVec.toInt := rfl
  rw [htoInt, BitVec.toInt_eq_toNat_cond, UInt32.toNat_toBitVec]
  unfold i32
  rw [Nat.mod_eq_of_lt hlt]
  split <;> split <;> omega

/-- `%d`: the sign, and the absolute value as an unsigned number. -/
theorem signed_text (word : UInt32) :
    (if i32 word.toNat < 0 then ch '-' :: itoa (u32 (-i32 word.toNat)) 10
      else itoa word.toNat 10) = intNumeral 10 word.toInt32.toInt := by
  have hlt := word.toNat_lt
  rw [← i32_word]
  unfold intNumeral
  split
  · have habs : u32 (-i32 word.toNat) = (i32 word.toNat).natAbs := by
      unfold u32 i32 at *
      omega
    rw [habs, itoa_eq_numeral (by decide)]
    rfl
  · have habs : word.toNat = (i32 word.toNat).natAbs := by
      unfold i32 at *
      omega
    rw [← habs, itoa_eq_numeral (by decide)]

/-- `%#x`. -/
theorem hex_text (word : UInt32) :
    List.replicate (8 - (itoa word.toNat 16).length) (ch '0') ++ itoa word.toNat 16 =
      fixedNumeral 16 8 word.toNat := by
  rw [itoa_eq_numeral (by decide)]
  exact padded_numeral (by decide) (by decide) word.toNat_lt

/-- The letters of `format_char_switch`. -/
theorem letter_cases (c : UInt8) : c = ch '%' ∨ c = ch '#' ∨ c = ch 'x' ∨ c = ch 'u' ∨ c = ch 'd' ∨
    c = ch 'c' ∨ c = ch 's' ∨ (c ≠ ch '%' ∧ c ≠ ch '#' ∧ c ≠ ch 'x' ∧ c ≠ ch 'u' ∧ c ≠ ch 'd' ∧
      c ≠ ch 'c' ∧ c ≠ ch 's') := by
  tauto

theorem Piece.ofChar_unknown {c : UInt8} (alternate : Bool) (h : c ≠ ch '%' ∧ c ≠ ch '#' ∧
    c ≠ ch 'x' ∧ c ≠ ch 'u' ∧ c ≠ ch 'd' ∧ c ≠ ch 'c' ∧ c ≠ ch 's') :
    Piece.ofChar alternate c = .unknown := by
  obtain ⟨hp, -, hx, hu, hd, hc, hs⟩ := h
  simp [Piece.ofChar, hp, hx, hu, hd, hc, hs]

theorem Piece.text_string (alternate : Bool) :
    (Piece.ofChar alternate (ch 's')).text st word = st.string word := rfl

/-- **A conversion prints its piece.** -/
theorem printfConv_succ (fuel pos arg : Nat) (alternate : Bool) :
    printfConv format st (fuel + 1) pos arg alternate =
      if format pos = ch '#' then printfConv format st fuel (pos + 1) arg true
      else
        ((Piece.ofChar alternate (format pos)).text st (st.word arg)).elim ⟨[], true⟩
          (printfGo format st fuel (pos + 1)
            (arg + (Piece.ofChar alternate (format pos)).takes)).before := by
  rw [printfConv]
  dsimp only
  rw [signed_text, hex_text, itoa_eq_numeral (by decide), itoa_eq_numeral (by decide)]
  rcases letter_cases (format pos) with h | h | h | h | h | h | h | h
  · rw [h]
    rfl
  · rw [h]
    rfl
  · rw [h]
    cases alternate <;> rfl
  · rw [h]
    rfl
  · rw [h]
    rfl
  · rw [h]
    rfl
  · rw [h, Piece.text_string]
    cases st.string (st.word arg) <;> rfl
  · rw [Piece.ofChar_unknown alternate h]
    obtain ⟨hp, ha, hx, hu, hd, hc, hs⟩ := h
    rw [if_neg hp, if_neg ha, if_neg ha, if_neg hx, if_neg hu, if_neg hd, if_neg hc, if_neg hs]
    rfl

/-- It reads one byte, and goes on unless its string cannot be read. -/
theorem printfReadsConv_succ (fuel pos arg : Nat) (alternate : Bool) :
    printfReadsConv format st (fuel + 1) pos arg =
      pos :: if format pos = ch '#' then printfReadsConv format st fuel (pos + 1) arg
      else
        ((Piece.ofChar alternate (format pos)).text st (st.word arg)).elim [] fun _ =>
          printfReadsGo format st fuel (pos + 1)
            (arg + (Piece.ofChar alternate (format pos)).takes) := by
  rw [printfReadsConv]
  congr 1
  rcases letter_cases (format pos) with h | h | h | h | h | h | h | h
  · rw [h]
    rfl
  · rw [h]
    rfl
  · rw [h]
    cases alternate <;> rfl
  · rw [h]
    rfl
  · rw [h]
    rfl
  · rw [h]
    rfl
  · rw [h, Piece.text_string]
    cases st.string (st.word arg) <;> rfl
  · rw [Piece.ofChar_unknown alternate h]
    obtain ⟨hp, ha, hx, hu, hd, hc, hs⟩ := h
    rw [if_neg hp, if_neg ha, if_neg ha, if_neg (by simp [hx, hu, hd, hc]), if_neg hs]
    rfl

end Conversion

/-! ## The whole format -/

section Format

variable {format : Nat → UInt8} {st : Stack} {c : UInt8} {rest out : List UInt8}
  {pos arg fuel : Nat}

/-- The first byte of what is left of a string, and the bytes behind it. -/
theorem HoldsString.cons (h : HoldsString (fun i => format (pos + i)) (c :: rest)) :
    format pos = c ∧ c ≠ 0 ∧ HoldsString (fun i => format (pos + 1 + i)) rest := by
  have hadd : ∀ i, pos + 1 + i = pos + (i + 1) := fun i => by omega
  refine ⟨h.chars 0 (Nat.succ_pos _), fun h0 => h.nonzero (h0 ▸ List.mem_cons_self),
    fun i hi => ?_, ?_, fun h0 => h.nonzero (List.mem_cons_of_mem _ h0)⟩
  · simp only [hadd]
    exact h.chars (i + 1) (Nat.succ_lt_succ hi)
  · simp only [hadd]
    exact h.ends

/-- What is printed for one piece and the rest. -/
theorem rendering_cons {p : Piece} {ps : List Piece} : rendering st (p :: ps) arg = some out ↔
    ∃ text more, p.text st (st.word arg) = some text ∧
      rendering st ps (arg + p.takes) = some more ∧ out = text ++ more := by
  simp only [rendering, Option.bind_eq_some_iff, Option.map_eq_some_iff]
  constructor
  · rintro ⟨text, ht, more, hm, rfl⟩
    exact ⟨text, more, ht, hm, rfl⟩
  · rintro ⟨text, more, ht, hm, rfl⟩
    exact ⟨text, ht, more, hm, rfl⟩

/-- **`printf` prints the pieces** of a format that does not end inside a conversion. -/
theorem printfGo_eq (h : HoldsString (fun i => format (pos + i)) rest)
    (hfuel : rest.length < fuel) :
    (complete rest → rendering st (pieces rest) arg = some out →
      printfGo format st fuel pos arg = ⟨out, false⟩) ∧
    ∀ alternate, completeConv rest → rendering st (conversion alternate rest) arg = some out →
      printfConv format st fuel pos arg alternate = ⟨out, false⟩ := by
  induction rest generalizing pos arg fuel out with
  | nil =>
    obtain ⟨fuel, rfl⟩ : ∃ f, fuel = f + 1 := ⟨fuel - 1, by omega⟩
    refine ⟨fun _ hr => ?_, fun _ hc => nomatch hc⟩
    have h0 : format pos = 0 := h.ends
    rw [printfGo, if_pos h0]
    cases hr
    rfl
  | cons c rest ih =>
    obtain ⟨fuel, rfl⟩ : ∃ f, fuel = f + 1 := ⟨fuel - 1, by omega⟩
    obtain ⟨hc, h0, h⟩ := h.cons
    have hfuel : rest.length < fuel := Nat.lt_of_succ_lt_succ hfuel
    constructor
    · intro hcomplete hr
      rw [printfGo, hc, if_neg h0]
      rw [complete] at hcomplete
      rw [pieces] at hr
      split
      · rename_i hp
        rw [if_pos hp] at hcomplete hr
        exact (ih h hfuel).2 false hcomplete hr
      · rename_i hp
        rw [if_neg hp] at hcomplete hr
        obtain ⟨text, more, ht, hm, rfl⟩ := rendering_cons.mp hr
        cases ht
        have hgo : printfGo format st fuel (pos + 1) arg = ⟨more, false⟩ :=
          (ih h hfuel).1 hcomplete hm
        rw [hgo]
        rfl
    · intro alternate hcomplete hr
      rw [printfConv_succ, hc]
      rw [completeConv] at hcomplete
      rw [conversion] at hr
      split
      · rename_i ha
        rw [if_pos ha] at hcomplete hr
        exact (ih h hfuel).2 true hcomplete hr
      · rename_i ha
        rw [if_neg ha] at hcomplete hr
        obtain ⟨text, more, ht, hm, rfl⟩ := rendering_cons.mp hr
        rw [ht, (ih h hfuel).1 hcomplete hm]
        rfl

/-- The bytes that are read end with the NUL, for such a format. -/
theorem printfReads_le (h : HoldsString (fun i => format (pos + i)) rest) :
    (complete rest → ∀ p ∈ printfReadsGo format st fuel pos arg, p ≤ pos + rest.length) ∧
    (completeConv rest → ∀ p ∈ printfReadsConv format st fuel pos arg, p ≤ pos + rest.length) := by
  induction rest generalizing pos arg fuel with
  | nil =>
    refine ⟨fun _ p hp => ?_, fun hc => nomatch hc⟩
    have h0 : format pos = 0 := h.ends
    cases fuel with
    | zero => cases hp
    | succ fuel =>
      rw [printfReadsGo, if_pos h0, List.mem_singleton] at hp
      exact Nat.le_of_eq hp
  | cons c rest ih =>
    obtain ⟨hc, h0, h⟩ := h.cons
    have hlen : pos + 1 + rest.length = pos + (c :: rest).length := by
      rw [List.length_cons]
      omega
    constructor
    · intro hcomplete p hp
      rw [complete] at hcomplete
      cases fuel with
      | zero => cases hp
      | succ fuel =>
        rw [printfReadsGo, hc, if_neg h0, List.mem_cons] at hp
        rcases hp with rfl | hp
        · exact Nat.le_add_right ..
        rw [← hlen]
        split at hp
        · rename_i hpct
          rw [if_pos hpct] at hcomplete
          exact (ih h).2 hcomplete p hp
        · rename_i hpct
          rw [if_neg hpct] at hcomplete
          exact (ih h).1 hcomplete p hp
    · intro hcomplete p hp
      rw [completeConv] at hcomplete
      cases fuel with
      | zero => cases hp
      | succ fuel =>
        rw [printfReadsConv_succ fuel pos arg false, hc, List.mem_cons] at hp
        rcases hp with rfl | hp
        · exact Nat.le_add_right ..
        rw [← hlen]
        split at hp
        · rename_i ha
          rw [if_pos ha] at hcomplete
          exact (ih h).2 hcomplete p hp
        · rename_i ha
          rw [if_neg ha] at hcomplete
          cases ht : (Piece.ofChar false c).text st (st.word arg) with
          | none =>
            rw [ht] at hp
            cases hp
          | some text =>
            rw [ht] at hp
            exact (ih h).1 hcomplete p hp

/-- **A format that ends inside a conversion is read past its NUL.** -/
theorem past_mem_printfReads (h : HoldsString (fun i => format (pos + i)) rest) :
    (¬ complete rest → rendering st (pieces rest) arg = some out →
      pos + rest.length + 1 ∈ printfReadsGo format st (rest.length + 2) pos arg) ∧
    ∀ alternate, ¬ completeConv rest → rendering st (conversion alternate rest) arg = some out →
      pos + rest.length + 1 ∈ printfReadsConv format st (rest.length + 2) pos arg := by
  induction rest generalizing pos arg out with
  | nil =>
    refine ⟨fun hc => (hc rfl).elim, fun _ _ _ => ?_⟩
    -- the NUL is a letter without a conversion, and the step behind it is taken
    have h0 : format pos = 0 := h.ends
    show pos + 1 ∈ printfReadsConv format st 2 pos arg
    rw [printfReadsConv_succ 1 pos arg false, h0]
    exact List.mem_cons_of_mem _ List.mem_cons_self
  | cons c rest ih =>
    obtain ⟨hc, h0, h⟩ := h.cons
    have hlen : pos + (c :: rest).length + 1 = pos + 1 + rest.length + 1 := by
      rw [List.length_cons]
      omega
    rw [hlen]
    constructor
    · intro hcomplete hr
      rw [complete] at hcomplete
      rw [pieces] at hr
      show _ ∈ printfReadsGo format st (rest.length + 2 + 1) pos arg
      rw [printfReadsGo, hc, if_neg h0]
      refine List.mem_cons_of_mem _ ?_
      split
      · rename_i hp
        rw [if_pos hp] at hcomplete hr
        exact (ih h).2 false hcomplete hr
      · rename_i hp
        rw [if_neg hp] at hcomplete hr
        obtain ⟨text, more, -, hm, -⟩ := rendering_cons.mp hr
        exact (ih h).1 hcomplete hm
    · intro alternate hcomplete hr
      rw [completeConv] at hcomplete
      rw [conversion] at hr
      show _ ∈ printfReadsConv format st (rest.length + 2 + 1) pos arg
      rw [printfReadsConv_succ _ pos arg alternate, hc]
      refine List.mem_cons_of_mem _ ?_
      split
      · rename_i ha
        rw [if_pos ha] at hcomplete hr
        exact (ih h).2 true hcomplete hr
      · rename_i ha
        rw [if_neg ha] at hcomplete hr
        obtain ⟨text, more, ht, hm, -⟩ := rendering_cons.mp hr
        rw [ht]
        exact (ih h).1 hcomplete hm

/-- The bytes that are read decide what is printed. -/
theorem printf_congr {format' : Nat → UInt8} (fuel : Nat) :
    (∀ pos arg, (∀ p ∈ printfReadsGo format st fuel pos arg, format' p = format p) →
      printfGo format' st fuel pos arg = printfGo format st fuel pos arg) ∧
    ∀ pos arg alternate, (∀ p ∈ printfReadsConv format st fuel pos arg, format' p = format p) →
      printfConv format' st fuel pos arg alternate = printfConv format st fuel pos arg alternate := by
  induction fuel with
  | zero => exact ⟨fun _ _ _ => rfl, fun _ _ _ _ => rfl⟩
  | succ fuel ih =>
    constructor
    · intro pos arg h
      rw [printfReadsGo, List.forall_mem_cons] at h
      obtain ⟨hpos, h⟩ := h
      rw [printfGo, printfGo, hpos]
      split
      · rfl
      · rename_i h0
        rw [if_neg h0] at h
        split
        · rename_i hp
          rw [if_pos hp] at h
          exact ih.2 _ _ _ h
        · rename_i hp
          rw [if_neg hp] at h
          rw [ih.1 _ _ h]
    · intro pos arg alternate h
      rw [printfReadsConv_succ fuel pos arg alternate, List.forall_mem_cons] at h
      obtain ⟨hpos, h⟩ := h
      rw [printfConv_succ, printfConv_succ, hpos]
      split
      · rename_i ha
        rw [if_pos ha] at h
        exact ih.2 _ _ _ h
      · rename_i ha
        rw [if_neg ha] at h
        cases ht : (Piece.ofChar alternate (format pos)).text st (st.word arg) with
        | none => rfl
        | some text =>
          rw [ht] at h
          show (printfGo format' st fuel (pos + 1) _).before text =
            (printfGo format st fuel (pos + 1) _).before text
          rw [ih.1 _ _ h]

end Format

/-- **`printf` scans exactly its format**, and prints what its pieces say, exactly if the format does
not end inside a conversion. `out` is what the pieces print, so the arguments match. -/
theorem printf_scans_iff {format : Nat → UInt8} {st : Stack} {text out : List UInt8}
    (hf : HoldsString format text) (hlen : text.length < 4294967296)
    (hargs : rendering st (pieces text) 0 = some out) :
    ((∀ fuel, ∀ p ∈ printfReadsGo format st fuel 0 0, p ≤ text.length) ∧
      printfOut format st = ⟨out, false⟩) ↔ complete text := by
  have h : HoldsString (fun i => format (0 + i)) text := by
    simp only [Nat.zero_add]
    exact hf
  constructor
  · rintro ⟨hreads, -⟩
    by_contra hc
    have hpast := (past_mem_printfReads h).1 hc hargs
    have := hreads _ _ hpast
    omega
  · intro hc
    refine ⟨fun fuel p hp => ?_, (printfGo_eq h hlen).1 hc hargs⟩
    have := (printfReads_le h).1 hc p hp
    omega

/-- A stack whose words are all -10. -/
def minusTen : Stack := ⟨fun _ => 0xFFFFFFF6, fun _ => none, fun _ => 0⟩

/-- A hexadecimal number and a signed one. -/
theorem printf_scans_sample :
    (∀ fuel, ∀ p ∈ printfReadsGo (fun i => (lit ['%', '#', 'x', '%', 'd']).getD i 0) minusTen fuel 0 0,
      p ≤ 5) ∧
    printfOut (fun i => (lit ['%', '#', 'x', '%', 'd']).getD i 0) minusTen =
      ⟨lit ['F', 'F', 'F', 'F', 'F', 'F', 'F', '6', '-', '1', '0'], false⟩ := by
  have hf : HoldsString (fun i => (lit ['%', '#', 'x', '%', 'd']).getD i 0)
      (lit ['%', '#', 'x', '%', 'd']) := ⟨by decide, rfl, by decide⟩
  have hargs : rendering minusTen (pieces (lit ['%', '#', 'x', '%', 'd'])) 0 =
      some (lit ['F', 'F', 'F', 'F', 'F', 'F', 'F', '6', '-', '1', '0']) := by decide +kernel
  exact (printf_scans_iff hf (by decide) hargs).mpr (by decide)

/-- The format `%` with an `a` behind its NUL: the `a` is read and printed. -/
theorem printf_runs_past_end :
    HoldsString (fun i => [ch '%', 0, ch 'a'].getD i 0) [ch '%'] ∧
    rendering minusTen (pieces [ch '%']) 0 = some [] ∧
    (printfOut (fun i => [ch '%', 0, ch 'a'].getD i 0) minusTen).chars = [ch 'a'] ∧
    ¬ ((∀ fuel, ∀ p ∈ printfReadsGo (fun i => [ch '%', 0, ch 'a'].getD i 0) minusTen fuel 0 0,
        p ≤ 1) ∧
      printfOut (fun i => [ch '%', 0, ch 'a'].getD i 0) minusTen = ⟨[], false⟩) := by
  refine ⟨⟨by decide, rfl, by decide⟩, rfl, by decide +kernel, ?_⟩
  rintro ⟨hreads, -⟩
  exact absurd (hreads 3 2 (by decide)) (by decide)

end Mp3
