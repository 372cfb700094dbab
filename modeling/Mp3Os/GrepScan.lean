import Mp3Os.Lib.Lines
import Mp3Os.Support

/-!
# The buffer of `grep` (`do_one_file` in `ece391grep.c`)

`do_one_file` reads a file into a buffer of 1024 bytes and a spare one, searches the lines that are
complete and moves the rest to the front. `scanLines` is its inner loop up to the next line to print.

`Scanned` says what it must come to: the lines with a match of what is in the buffer and what is
left of the file are the line found and those of what is left then. It does come to this
(`scanLines_spec`) if no byte is NUL, every line has less than 1024 bytes, and there is no newline
in the part of the buffer that holds nothing (`ScanOk`): the code looks at the byte behind the last.
-/

namespace Mp3

/-- The newline. -/
abbrev nl : UInt8 := ch '\n'

/-- The loop to the end of a line: `fuel` is the number of bytes up to `last`. -/
def lineEnd (data : Nat → UInt8) : Nat → Nat → Nat
  | 0, e => e
  | fuel + 1, e => if data e ≠ nl then lineEnd data fuel (e + 1) else e

/-- The loop that searches the line from `lineStart` to `lineEnd`. -/
def searchLine (s : Nat → UInt8) (sLen : Nat) (data : Nat → UInt8) (lineStart lineEnd : Nat) : Bool :=
  (List.range (lineEnd - lineStart)).any fun k =>
    s 0 = data (lineStart + k) ∧ ece391Strncmp (fun i => data (lineStart + k + i)) s sLen = 0

/-- The inner loop comes to a line to print, or to the next read. -/
inductive Scan where
  | found (data : Nat → UInt8) (lineStart lineEnd : Nat)
  | stop (data : Nat → UInt8) (last : Nat)

/-- The inner loop of `do_one_file` from `lineStart` on. Each round goes behind a newline, so there
are no more rounds than bytes. -/
def scanLines (s : Nat → UInt8) (sLen last : Nat) (cnt : Int) : Nat → (Nat → UInt8) → Nat → Scan
  | 0, data, _ => .stop data 0
  | fuel + 1, data, lineStart =>
    let lineEnd := lineEnd data (last - lineStart) lineStart
    if data lineEnd ≠ nl ∧ cnt ≠ 0 ∧ lineStart ≠ 0 then
      .stop (ece391Strcpy 1025 (Function.update data lineEnd 0) 0 lineStart) (last - lineStart)
    else
      let data := Function.update data lineEnd 0
      if searchLine s sLen data lineStart lineEnd then .found data lineStart lineEnd
      else if last ≤ lineEnd + 1 then .stop data 0
      else scanLines s sLen last cnt fuel data (lineEnd + 1)

/-- The loop after a line that was printed. -/
def scanNext (s : Nat → UInt8) (sLen last : Nat) (cnt : Int) (data : Nat → UInt8) (lineEnd : Nat) :
    Scan :=
  if last ≤ lineEnd + 1 then .stop data 0 else scanLines s sLen last cnt 1025 data (lineEnd + 1)

/-- The buffer from `lineStart` on and the `rest` of the file, which has more only if the read has
filled the buffer. -/
structure ScanOk (data : Nat → UInt8) (last : Nat) (cnt : Int) (lineStart : Nat) (rest : List UInt8) :
    Prop where
  le : last ≤ 1024
  newlines : ∀ i ≤ 1024, data i = nl → lineStart ≤ i ∧ i < last
  noNul : 0 ∉ seg data lineStart last
  short : Lines.Short nl 1024 (seg data lineStart last ++ rest)
  more : rest ≠ [] → cnt ≠ 0 ∧ last = 1024

/-- The buffer at a read: an incomplete line, and no newline. -/
structure BufferOk (data : Nat → UInt8) (last : Nat) (rest : List UInt8) : Prop where
  lt : last < 1024
  newlines : ∀ i ≤ 1024, data i ≠ nl
  noNul : 0 ∉ seg data 0 last
  short : Lines.Short nl 1024 (seg data 0 last ++ rest)

/-- What the loop must come to, for the pattern `str` and a text. -/
def Scanned (str : List UInt8) (last : Nat) (cnt : Int) (rest text : List UInt8) : Scan → Prop
  | .found data lineStart lineEnd =>
    IsName (fun i => data (lineStart + i)) (seg data lineStart lineEnd) ∧ lineEnd ≤ last ∧
      ScanOk data last cnt (lineEnd + 1) rest ∧
      Lines.matching nl str text =
        seg data lineStart lineEnd :: Lines.matching nl str (seg data (lineEnd + 1) last ++ rest)
  | .stop data last' =>
    BufferOk data last' rest ∧ (cnt = 0 → last' = 0) ∧
      Lines.matching nl str text = Lines.matching nl str (seg data 0 last' ++ rest)

section Loops

variable {data s : Nat → UInt8} {str rest : List UInt8} {last lineStart e : Nat} {cnt : Int}

/-- **The end of a line** is the next newline, or `last`. -/
theorem lineEnd_spec (data : Nat → UInt8) (fuel e : Nat) :
    e ≤ lineEnd data fuel e ∧ lineEnd data fuel e ≤ e + fuel ∧
      (∀ i, e ≤ i → i < lineEnd data fuel e → data i ≠ nl) ∧
      (lineEnd data fuel e < e + fuel → data (lineEnd data fuel e) = nl) := by
  induction fuel generalizing e with
  | zero => exact ⟨Nat.le_refl e, Nat.le_refl e, fun i h h' => absurd h' (by rw [lineEnd]; omega),
      fun h => absurd h (by rw [lineEnd]; omega)⟩
  | succ fuel ih =>
    rw [lineEnd]
    by_cases h : data e = nl
    · rw [if_neg (not_not_intro h)]
      exact ⟨Nat.le_refl e, by omega, fun i hi hi' => absurd hi' (by omega), fun _ => h⟩
    · rw [if_pos h]
      obtain ⟨h1, h2, h3, h4⟩ := ih (e + 1)
      refine ⟨by omega, by omega, fun i hi hi' => ?_, fun hlt => h4 (by omega)⟩
      by_cases he : i = e
      · rw [he]
        exact h
      · exact h3 i (by omega) hi'

/-- A line that is ended by a NUL is a string. -/
theorem isName_seg {a b : Nat} (hab : a ≤ b) (hno : 0 ∉ seg data a b) (h0 : data b = 0) :
    IsName (fun i => data (a + i)) (seg data a b) := by
  refine ⟨hno, fun i hi => ?_⟩
  rw [length_seg] at hi
  by_cases hlt : i < b - a
  · rw [List.getD_eq_getElem _ _ (by simpa using hlt), getElem_seg]
  · rw [List.getD_eq_default _ _ (by simp; omega), show a + i = b by omega, h0]

/-- **The search of a line** finds the pattern exactly if it occurs in the line. -/
theorem searchLine_iff (hs : IsName s str) (hne : str ≠ []) {a b : Nat} (hab : a ≤ b)
    (h0 : data b = 0) :
    searchLine s str.length data a b = true ↔ str <:+: seg data a b := by
  have hpos := List.length_pos_iff.mpr hne
  have hnul : ∀ i (hi : i < str.length), str[i] ≠ 0 := fun i hi h =>
    hs.noNul (h ▸ List.getElem_mem hi)
  simp only [searchLine, List.any_eq_true, List.mem_range, decide_eq_true_eq, ece391Strncmp_eq_zero hs]
  constructor
  · rintro ⟨k, hk, -, hmatch⟩
    -- the match ends before the NUL behind the line
    have hend : a + k + str.length ≤ b := by
      by_contra hlt
      have hz := hmatch (b - (a + k)) (by omega)
      rw [show a + k + (b - (a + k)) = b by omega, h0, List.getD_eq_getElem _ _ (by omega)] at hz
      exact hnul _ (by omega) hz.symm
    have hstr : seg data (a + k) (a + k + str.length) = str := by
      apply List.ext_getElem
      · simp
      · intro i hi hi'
        rw [getElem_seg, hmatch i hi', List.getD_eq_getElem _ _ hi']
    have hcut : seg data a (a + k) ++ seg data (a + k) (a + k + str.length) ++
        seg data (a + k + str.length) b = seg data a b := by
      rw [seg_append (by omega) (by omega), seg_append (by omega) hend]
    rw [hstr] at hcut
    exact ⟨_, _, hcut⟩
  · rintro ⟨u, v, huv⟩
    have hlen := congrArg List.length huv
    simp only [List.length_append, length_seg] at hlen
    have hbyte : ∀ i (hi : i < str.length), data (a + u.length + i) = str[i] := by
      intro i hi
      have hin : u.length + i < (seg data a b).length := by simp; omega
      have hget := getElem_seg (m := data) hin
      rw [Nat.add_assoc, ← hget]
      simp only [← huv]
      rw [List.getElem_append_left (by simp; omega), List.getElem_append_right (by omega)]
      congr 1
      omega
    refine ⟨u.length, by omega, ?_, fun i hi => ?_⟩
    · rw [hs.bytes 0 (by omega), List.getD_eq_getElem _ _ hpos]
      exact (hbyte 0 hpos).symm
    · rw [hbyte i hi, List.getD_eq_getElem _ _ hi]

/-! ### The rounds of the inner loop -/

/-- The buffer behind a line: `data` with the end of the line set to NUL. -/
theorem ScanOk.behind (h : ScanOk data last cnt lineStart rest) (hle : lineStart ≤ e)
    (hline : ∀ i, lineStart ≤ i → i < e → data i ≠ nl)
    (hshort : Lines.Short nl 1024 (seg data (e + 1) last ++ rest)) :
    ScanOk (Function.update data e 0) last cnt (e + 1) rest := by
  have hseg : seg (Function.update data e 0) (e + 1) last = seg data (e + 1) last :=
    seg_congr fun i hi _ => Function.update_of_ne (by omega) ..
  refine ⟨h.le, fun i hi hn => ?_, ?_, ?_, h.more⟩
  · rw [Function.update_apply] at hn
    split at hn
    · exact absurd hn (by decide)
    · rename_i hne
      obtain ⟨h1, h2⟩ := h.newlines i hi hn
      refine ⟨?_, h2⟩
      by_contra hlt
      exact hline i h1 (by omega) hn
  · rw [hseg]
    intro h0
    obtain ⟨i, h1, h2, hz⟩ := mem_seg.mp h0
    exact h.noNul (mem_seg.mpr ⟨i, by omega, h2, hz⟩)
  · rw [hseg]
    exact hshort

/-- Behind the last line the buffer is used up. -/
theorem scanned_stop (h : ScanOk data last cnt (e + 1) rest) (hend : last ≤ e + 1) :
    Scanned str last cnt rest (seg data (e + 1) last ++ rest) (.stop data 0) := by
  have hempty : seg data (e + 1) last = [] := seg_nil hend
  have hshort := h.short
  rw [hempty] at hshort ⊢
  refine ⟨⟨by decide, fun i hi hn => ?_, List.not_mem_nil, hshort⟩, fun _ => rfl, rfl⟩
  have hrange := h.newlines i hi hn
  omega

/-- An incomplete line moves to the front. -/
theorem scanned_move (h : ScanOk data last cnt lineStart rest) (h0 : lineStart ≠ 0)
    (hlt : lineStart < last) (hcnt : cnt ≠ 0) (hline : ∀ i, lineStart ≤ i → i < last → data i ≠ nl) :
    Scanned str last cnt rest (seg data lineStart last ++ rest)
      (.stop (ece391Strcpy 1025 (Function.update data last 0) 0 lineStart) (last - lineStart)) := by
  have hle := h.le
  have hnew : ∀ i, Function.update data last 0 i = nl → i < lineStart ∨ 1024 < i := by
    intro i hn
    by_contra hc
    rw [Function.update_apply] at hn
    split at hn
    · exact absurd hn (by decide)
    · obtain ⟨h1, h2⟩ := h.newlines i (by omega) hn
      exact hline i h1 h2 hn
  have hcopy : ∀ i, ece391Strcpy 1025 (Function.update data last 0) 0 lineStart i =
      if i ≤ last - lineStart then Function.update data last 0 (lineStart + i)
      else Function.update data last 0 i := by
    intro i
    rw [@ece391Strcpy_eq (Function.update data last 0) 0 lineStart (last - lineStart) 1025 (by omega)]
    · simp
    · intro i hi
      rw [Function.update_of_ne (by omega)]
      exact fun hz => h.noNul (mem_seg.mpr ⟨lineStart + i, by omega, by omega, hz⟩)
    · rw [show lineStart + (last - lineStart) = last by omega, Function.update_self]
    · omega
  have hseg : seg (ece391Strcpy 1025 (Function.update data last 0) 0 lineStart) 0
      (last - lineStart) = seg data lineStart last := by
    apply List.ext_getElem
    · simp
    · intro i hi hi'
      simp only [length_seg] at hi
      rw [getElem_seg, getElem_seg, hcopy, if_pos (by omega), Function.update_of_ne (by omega),
        Nat.zero_add]
  refine ⟨⟨by omega, fun i hi hn => ?_, ?_, ?_⟩, fun hz => absurd hz hcnt, by rw [hseg]⟩
  · rw [hcopy] at hn
    split at hn
    · have hr := hnew _ hn
      omega
    · -- before the line there is no newline either
      rw [Function.update_apply] at hn
      split at hn
      · exact absurd hn (by decide)
      · have hr := h.newlines i hi hn
        exact hline i hr.1 hr.2 hn
  · rw [hseg]
    exact h.noNul
  · rw [hseg]
    exact h.short

/-- What the loop must come to depends on the matches of the text. -/
theorem Scanned.congr {text text' : List UInt8} {r : Scan} (h : Scanned str last cnt rest text' r)
    (ht : Lines.matching nl str text = Lines.matching nl str text') :
    Scanned str last cnt rest text r := by
  cases r with
  | found data a b => exact ⟨h.1, h.2.1, h.2.2.1, ht.trans h.2.2.2⟩
  | stop data b => exact ⟨h.1, h.2.1, ht.trans h.2.2⟩

/-- Without a newline in the buffer the file is at its end, unless the line moves to the front. -/
theorem ScanOk.atEnd (h : ScanOk data last cnt lineStart rest)
    (hline : nl ∉ seg data lineStart last) (hc : ¬ (cnt ≠ 0 ∧ lineStart ≠ 0)) : rest = [] := by
  by_contra hrest
  obtain ⟨hcnt, hlast⟩ := h.more hrest
  have hzero : lineStart = 0 := by
    by_contra hz
    exact hc ⟨hcnt, hz⟩
  -- the first line would have 1024 bytes
  have hlen := h.short.start hline
  rw [length_seg] at hlen
  omega

/-- **The inner loop of `do_one_file`** comes to what it must come to. -/
theorem scanLines_spec (hs : IsName s str) (hne : str ≠ []) (fuel : Nat)
    (h : ScanOk data last cnt lineStart rest) (hle : lineStart ≤ last)
    (hz : lineStart = last → last = 0) (hf : last - lineStart < fuel) :
    Scanned str last cnt rest (seg data lineStart last ++ rest)
      (scanLines s str.length last cnt fuel data lineStart) := by
  induction fuel generalizing data lineStart with
  | zero => omega
  | succ fuel ih =>
    obtain ⟨hge, hend, hno, hnl⟩ := lineEnd_spec data (last - lineStart) lineStart
    rw [scanLines]
    dsimp only
    generalize lineEnd data (last - lineStart) lineStart = e at hge hend hno hnl
    have hlast := h.le
    have hline : nl ∉ seg data lineStart e := fun hm => by
      obtain ⟨i, h1, h2, hi⟩ := mem_seg.mp hm
      exact hno i h1 h2 hi
    have hseg : seg (Function.update data e 0) lineStart e = seg data lineStart e :=
      seg_congr fun i _ hi => Function.update_of_ne (by omega) ..
    have hback : seg (Function.update data e 0) (e + 1) last = seg data (e + 1) last :=
      seg_congr fun i hi _ => Function.update_of_ne (by omega) ..
    have hnul : 0 ∉ seg data lineStart e := fun hm => by
      obtain ⟨i, h1, h2, hi⟩ := mem_seg.mp hm
      exact h.noNul (mem_seg.mpr ⟨i, h1, by omega, hi⟩)
    have hzero : Function.update data e 0 e = 0 := Function.update_self ..
    have hname := isName_seg hge (by rw [hseg]; exact hnul) hzero
    have hsearch := searchLine_iff hs hne hge hzero
    rw [hseg] at hsearch
    by_cases he : e < last
    · -- the line is complete
      have hdata : data e = nl := hnl (by omega)
      have htext : seg data lineStart last ++ rest =
          seg data lineStart e ++ nl :: (seg data (e + 1) last ++ rest) := by
        rw [← seg_append hge he.le, seg_cons he, hdata, List.append_assoc, List.cons_append]
      have hshort := h.short
      rw [htext, Lines.short_line hline] at hshort
      have hbehind := h.behind hge hno hshort.2
      rw [if_neg (fun hc => hc.1 hdata), htext]
      by_cases hm : str <:+: seg data lineStart e
      · rw [if_pos (hsearch.mpr hm)]
        refine ⟨hname, he.le, hbehind, ?_⟩
        rw [Lines.matching_line hline, if_pos hm, hseg, hback]
        rfl
      · rw [if_neg (mt hsearch.mp hm)]
        have hskip : Lines.matching nl str
            (seg data lineStart e ++ nl :: (seg data (e + 1) last ++ rest)) =
            Lines.matching nl str (seg (Function.update data e 0) (e + 1) last ++ rest) := by
          rw [Lines.matching_line hline, if_neg hm, List.nil_append, hback]
        split
        · rename_i hstop
          exact (scanned_stop hbehind hstop).congr hskip
        · exact (ih hbehind (by omega) (by omega) (by omega)).congr hskip
    · -- the buffer ends in the line
      obtain rfl : e = last := by omega
      have hdata : data e ≠ nl := fun hd => by
        have := (h.newlines e hlast hd).2
        omega
      by_cases hc : cnt ≠ 0 ∧ lineStart ≠ 0
      · rw [if_pos ⟨hdata, hc⟩]
        exact scanned_move h hc.2 (by omega) hc.1 hno
      · obtain rfl : rest = [] := h.atEnd hline hc
        have hempty : seg data (e + 1) e = [] := seg_nil (Nat.le_succ e)
        have hbehind := h.behind hge hno (by rw [hempty]; decide)
        rw [if_neg (fun hx => hc hx.2), List.append_nil]
        by_cases hm : str <:+: seg data lineStart e
        · rw [if_pos (hsearch.mpr hm)]
          refine ⟨hname, Nat.le_refl e, hbehind, ?_⟩
          rw [Lines.matching_last hline, if_pos hm, hseg, hback, hempty, List.append_nil,
            Lines.matching_nil hne]
        · rw [if_neg (mt hsearch.mp hm), if_pos (Nat.le_succ e)]
          refine (scanned_stop hbehind (Nat.le_succ e)).congr ?_
          rw [Lines.matching_last hline, if_neg hm, hback, hempty, List.append_nil,
            Lines.matching_nil hne]

/-- After a line that was printed. -/
theorem scanNext_spec (hs : IsName s str) (hne : str ≠ []) (h : ScanOk data last cnt (e + 1) rest) :
    Scanned str last cnt rest (seg data (e + 1) last ++ rest)
      (scanNext s str.length last cnt data e) := by
  have hlast := h.le
  unfold scanNext
  split
  · rename_i hstop
    exact scanned_stop h hstop
  · exact scanLines_spec hs hne 1025 h (by omega) (by omega) (by omega)

end Loops

end Mp3
