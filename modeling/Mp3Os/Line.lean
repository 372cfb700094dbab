import Mathlib.Data.List.TakeWhile
import Mp3Os.Terminal

/-!
# What `terminal_read` makes of a line

The line is what stands in the keyboard buffer before the first newline (`HasLine`).
`terminal_read` skips its leading spaces, gives the reader the text up to the next space or up to
and with the newline (`readBytes`), and keeps what follows the space as arguments (`argsOf`).

* `terminalRead_line`: on a buffer with a line, a read that does not wait returns this.
* `terminalRead_hasLine`: a read that returns has found a line.
-/

namespace Mp3

/-- The line without leading spaces. -/
def words (line : List UInt8) : List UInt8 := line.dropWhile (· = ch ' ')

/-- What the reader gets of a line. -/
def readBytes (line : List UInt8) : List UInt8 :=
  if ch ' ' ∈ words line then (words line).takeWhile (· ≠ ch ' ') else words line ++ [ch '\n']

/-- The arguments: what follows the first space. -/
def argsOf (line : List UInt8) : List UInt8 := ((words line).dropWhile (· ≠ ch ' ')).drop 1

/-- The buffer holds a finished line. -/
def HasLine (buf : Buf 128) (line : List UInt8) : Prop :=
  ch '\n' ∉ line ∧ ∃ rest, buf.toList = line ++ ch '\n' :: rest

/-! ## The scan for arguments -/

/-- The rounds of the scan on some bytes. -/
def ArgScan.scan : Nat → ArgScan → List UInt8 → ArgScan
  | _, a, [] => a
  | count, a, b :: bs => scan (count + 1) (a.next count b) bs

section Scan

variable {a : ArgScan} {buf : Buf 128} {line rest : List UInt8} {count fuel o : Nat}

/-- The loop scans the bytes before the newline. -/
theorem argScan_line (count : Nat) (a : ArgScan) (hline : ch '\n' ∉ line)
    (hbuf : buf.toList.drop count = line ++ ch '\n' :: rest) (hfuel : line.length < fuel) :
    argScan buf fuel count a = some (count + line.length, a.scan count line) := by
  induction line generalizing count a fuel with
  | nil =>
    obtain ⟨fuel, rfl⟩ : ∃ k, fuel = k + 1 := ⟨fuel - 1, by simp at hfuel; omega⟩
    rw [argScan, if_pos (Buf.getD_of_drop hbuf)]
    rfl
  | cons b bs ih =>
    obtain ⟨fuel, rfl⟩ : ∃ k, fuel = k + 1 := ⟨fuel - 1, by simp at hfuel; omega⟩
    have hb := Buf.getD_of_drop hbuf
    have hne : b ≠ ch '\n' := fun he => hline (by simp [he])
    have hdrop : buf.toList.drop (count + 1) = bs ++ ch '\n' :: rest := by
      rw [← List.drop_drop, hbuf]
      rfl
    rw [argScan, hb, if_neg hne, ih _ _ (fun hm => hline (by simp [hm])) hdrop
      (by simp at hfuel; omega)]
    simp only [ArgScan.scan, List.length_cons]
    congr 2
    omega

/-- A loop that ends has found a newline. -/
theorem argScan_some {r : Nat × ArgScan} (h : argScan buf fuel count a = some r) :
    ch '\n' ∈ buf.toList := by
  induction fuel generalizing count a with
  | zero => cases h
  | succ fuel ih =>
    rw [argScan] at h
    split at h
    · rename_i hb
      by_cases hc : count < 128
      · rw [← hb, Buf.getD, dif_pos hc, Buf.toList]
        exact List.mem_ofFn.mpr ⟨_, rfl⟩
      · rw [Buf.getD, dif_neg hc] at hb
        exact absurd hb (by decide)
    · exact ih h

/-- After the first space every byte is stored. -/
theorem scan_stored (count : Nat) (hs : a.spacecount = 0) (ho : a.offsetArg = o) (bs : List UInt8) :
    (a.scan count bs).max = a.max ∧ (a.scan count bs).storeargs = fun i =>
      if o ≤ i.1 ∧ i.1 < o + bs.length then bs.getD (i.1 - o) 0 else a.storeargs i := by
  induction bs generalizing a count o with
  | nil =>
    refine ⟨rfl, funext fun i => ?_⟩
    rw [if_neg (by simp)]
    rfl
  | cons b bs ih =>
    have hnext : a.next count b =
        { a with storeargs := a.storeargs.set a.offsetArg b, offsetArg := a.offsetArg + 1 } := by
      simp [ArgScan.next, hs]
    have h := ih (count + 1) (a := a.next count b) (o := o + 1) (by rw [hnext]; exact hs)
      (by rw [hnext]; simp [ho])
    rw [ArgScan.scan, h.1, h.2, hnext]
    refine ⟨rfl, funext fun i => ?_⟩
    simp only [List.length_cons, Buf.set, ho]
    by_cases hi : i.1 = o
    · rw [if_neg (by omega), if_pos (by omega), if_pos (by omega), hi]
      simp
    · by_cases hin : o + 1 ≤ i.1 ∧ i.1 < o + 1 + bs.length
      · rw [if_pos hin, if_pos (by omega), show i.1 - o = (i.1 - (o + 1)) + 1 by omega,
          List.getD_cons_succ]
      · rw [if_neg hin, if_neg (by omega), if_neg (by omega)]

/-- What the scan of a line leaves. -/
theorem scan_line (count : Nat) (hs : a.spacecount = -1) (hz : a.storeargs = Buf.zero)
    (line : List UInt8) :
    (a.scan count line).max =
      (if ch ' ' ∈ line then ((count + (line.takeWhile (· ≠ ch ' ')).length : Nat) : Int) else a.max) ∧
    (a.scan count line).storeargs = Buf.ofList ((line.dropWhile (· ≠ ch ' ')).drop 1) := by
  induction line generalizing a count with
  | nil => exact ⟨rfl, by rw [ArgScan.scan, hz]; simp⟩
  | cons b bs ih =>
    rw [ArgScan.scan]
    by_cases hb : b = ch ' '
    · have hnext : a.next count b = { a with spacecount := 0, offsetArg := 0, max := count } := by
        simp [ArgScan.next, hs, hb]
      obtain ⟨hmax, hst⟩ := scan_stored (count + 1) (a := a.next count b) (o := 0)
        (by rw [hnext]) (by rw [hnext]; rfl) bs
      rw [hmax, hst, hnext]
      refine ⟨by simp [hb], funext fun i => ?_⟩
      simp only [hz, hb, Buf.ofList]
      by_cases hi : i.1 < bs.length
      · simp [hi]
      · simp [hi, Buf.zero]
    · have hnext : a.next count b = a := by simp [ArgScan.next, hs, hb]
      obtain ⟨hmax, hst⟩ := ih (count + 1) hs hz
      rw [hnext, hmax, hst]
      refine ⟨?_, by simp [hb]⟩
      have hne : ¬ ch ' ' = b := fun he => hb he.symm
      simp only [List.mem_cons, hne, false_or, List.takeWhile_cons, ne_eq, hb, not_false_eq_true,
        decide_true, ↓reduceIte, List.length_cons]
      split
      · congr 1
        omega
      · rfl

end Scan

/-! ## The read -/

section Read

variable {buf : Buf 128} {line : List UInt8} {s s' : Kernel} {n ret : Int} {bytes : List UInt8}

theorem HasLine.length_lt (h : HasLine buf line) : line.length < 128 := by
  obtain ⟨-, rest, hr⟩ := h
  have := congrArg List.length hr
  simp at this
  omega

/-- A buffer with a newline holds a line. -/
theorem hasLine_of_mem (h : ch '\n' ∈ buf.toList) :
    HasLine buf (buf.toList.takeWhile (· ≠ ch '\n')) := by
  refine ⟨fun hm => ?_, ?_⟩
  · have := List.mem_takeWhile_imp hm
    simp at this
  · cases hd : buf.toList.dropWhile (· ≠ ch '\n') with
    | nil =>
      have := List.dropWhile_eq_nil_iff.mp hd _ h
      simp at this
    | cons b rest =>
      have hb : b = ch '\n' := by
        have := List.head?_dropWhile_not (· ≠ ch '\n') buf.toList
        rw [hd] at this
        simpa using this
      refine ⟨rest, ?_⟩
      rw [hb] at hd
      rw [← hd, List.takeWhile_append_dropWhile]

/-- The line of the buffer after the leading spaces are gone. -/
theorem hasLine_stripped (h : HasLine buf line) : HasLine (stripped buf) (words line) := by
  obtain ⟨hnl, rest, hr⟩ := h
  have hsplit : line.takeWhile (· = ch ' ') ++ words line = line := List.takeWhile_append_dropWhile
  have htake : buf.toList.takeWhile (· = ch ' ') = line.takeWhile (· = ch ' ') := by
    rw [hr, List.takeWhile_append]
    split
    · rename_i hl
      rw [List.takeWhile_cons, if_neg (by decide), List.append_nil]
      exact ((List.takeWhile_sublist _).eq_of_length hl).symm
    · rfl
  have hlen : (line.takeWhile (· = ch ' ')).length ≤ 128 := by
    have h1 := congrArg List.length hr
    have h2 := (List.takeWhile_sublist (· = ch ' ') (l := line)).length_le
    simp at h1
    omega
  refine ⟨fun hm => hnl (List.dropWhile_sublist _ |>.mem hm), ?_⟩
  rw [stripped, htake, Buf.toList_shiftDown _ hlen]
  refine ⟨rest ++ buf.toList.drop (128 - (line.takeWhile (· = ch ' ')).length), ?_⟩
  have hdrop : buf.toList.drop (line.takeWhile (· = ch ' ')).length =
      words line ++ ch '\n' :: rest := by
    rw [hr]
    conv_lhs => rw [← hsplit, List.append_assoc]
    rw [hsplit, List.drop_left]
  rw [hdrop]
  simp

/-- The number of bytes that a read of a line copies. -/
theorem readCount_line {rest : List UInt8} {m : List UInt8} (hm : m.length < 128) (hn : 0 ≤ n)
    (hbuf : buf.toList = m ++ ch '\n' :: rest) (max : Int)
    (hmax : max = if ch ' ' ∈ m then ((m.takeWhile (· ≠ ch ' ')).length : Int)
      else if 128 < n then 128 else n) :
    let r := if ch ' ' ∈ m then m.takeWhile (· ≠ ch ' ') else m ++ [ch '\n']
    readCount n max m.length = min (r.length : Int) n ∧
      buf.toList.take (readCount n max m.length).toNat = r.take n.toNat := by
  intro r
  have hr : ∃ tail, buf.toList = r ++ tail ∧ readCount n max m.length = min (r.length : Int) n := by
    by_cases hs : ch ' ' ∈ m
    · have hle := (List.takeWhile_sublist (· ≠ ch ' ') (l := m)).length_le
      simp only [r, hs, ↓reduceIte] at hmax ⊢
      refine ⟨m.dropWhile (· ≠ ch ' ') ++ ch '\n' :: rest, ?_, ?_⟩
      · rw [← List.append_assoc, List.takeWhile_append_dropWhile, hbuf]
      · simp only [readCount, hmax]
        split_ifs <;> omega
    · simp only [r, hs, ↓reduceIte] at hmax ⊢
      refine ⟨rest, by simp [hbuf], ?_⟩
      simp only [readCount, hmax, List.length_append, List.length_singleton]
      split_ifs <;> omega
  obtain ⟨tail, htail, hcount⟩ := hr
  refine ⟨hcount, ?_⟩
  rw [hcount, htail, List.take_append_of_le_length (by omega), List.take_eq_take_min (i := n.toNat)]
  congr 1
  omega

/-- **A read that does not wait, on a buffer with a line.** -/
theorem terminalRead_line (hw : ¬ s.ReadWaits) (h : HasLine s.kbd.bufKb line) (hn : 0 ≤ n) :
    s.terminalRead n = some (min ((readBytes line).length : Int) n, (readBytes line).take n.toNat,
      s.finishRead (Buf.ofList (argsOf line))) := by
  obtain ⟨hnl, rest, hr⟩ := hasLine_stripped h
  have hlen := (hasLine_stripped h).length_lt
  have hscan := argScan_line 0 ⟨Buf.zero, -1, 0, if 128 < n then 128 else n⟩ hnl
    (by simpa using hr) hlen
  obtain ⟨hmax, hst⟩ := scan_line 0 (a := ⟨Buf.zero, -1, 0, if 128 < n then 128 else n⟩) rfl rfl
    (words line)
  simp only [Nat.zero_add] at hscan hmax
  obtain ⟨hcount, hbytes⟩ := readCount_line hlen hn hr _ hmax
  unfold Kernel.terminalRead
  rw [if_neg hw]
  simp only [hscan, Option.bind_some, hst, hbytes]
  rw [if_neg (by rw [hcount]; omega), hcount]
  rfl

/-- A read that returns has found a line. -/
theorem terminalRead_hasLine (h : s.terminalRead n = some (ret, bytes, s')) :
    ¬ s.ReadWaits ∧ 0 ≤ n ∧ ∃ line, HasLine s.kbd.bufKb line := by
  obtain ⟨hw, count, a, hscan, h0, hret, -, -⟩ := terminalRead_eq h
  refine ⟨hw, ?_, _, hasLine_of_mem ?_⟩
  · simp only [readCount] at hret
    split_ifs at hret <;> omega
  · -- the stripped buffer has the bytes of the buffer
    have hm := argScan_some hscan
    rw [Buf.toList, List.mem_ofFn] at hm ⊢
    obtain ⟨i, hi⟩ := hm
    rw [stripped, Buf.shiftDown] at hi
    split at hi
    · exact ⟨_, hi⟩
    · exact ⟨_, hi⟩

end Read

end Mp3
