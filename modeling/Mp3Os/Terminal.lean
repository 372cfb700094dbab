import Mp3Os.Schedule

/-!
# Terminal reads and writes (`terminal.c`)

`terminal_read` waits until its terminal is visible and scheduled and a line is finished, cuts
the line into a command and its arguments, and keeps the arguments in the global `storeargs`.
-/

namespace Mp3

/-- The variables of the loop of `terminal_read` that collects the arguments. -/
structure ArgScan where
  storeargs : Buf 1024
  spacecount : Int
  offsetArg : Int
  max : Int

/-- One round of that loop, on the byte `b` at index `count`. -/
def ArgScan.next (a : ArgScan) (count : Nat) (b : UInt8) : ArgScan :=
  let a := if a.spacecount > -1 then
      { a with storeargs := a.storeargs.set a.offsetArg b, offsetArg := a.offsetArg + 1 }
    else a
  if b = ch ' ' ∧ a.spacecount = -1 then
    { a with spacecount := a.spacecount + 1, offsetArg := 0, max := count }
  else a

/-- The loop from index `count` on, to the index of the newline. `none` when it leaves the
buffer. -/
def argScan (buf : Buf 128) : Nat → Nat → ArgScan → Option (Nat × ArgScan)
  | 0, _, _ => none
  | fuel + 1, count, a =>
    if buf.getD count = ch '\n' then some (count, a)
    else argScan buf fuel (count + 1) (a.next count (buf.getD count))

/-- The keyboard buffer without its leading spaces. -/
def stripped (buf : Buf 128) : Buf 128 := buf.shiftDown (buf.toList.takeWhile (· = ch ' ')).length

/-- The number of bytes to copy; `max` is the index of the first space, if there is one, and
`count` that of the newline. -/
def readCount (nbytes max : Int) (count : Nat) : Int :=
  let count := count + 1
  let max := if max < count then max else count
  if max < nbytes then max else nbytes

namespace Kernel

variable (s : Kernel)

/-- `terminal_read` is in its loop: no line is finished, or its terminal is not both visible and
scheduled. -/
def ReadWaits : Prop := (s.terminals s.visible).enterFlag ≠ 0 ∨ s.curTerminal ≠ s.visible

instance : Decidable s.ReadWaits := inferInstanceAs (Decidable (_ ∨ _))

/-- What a read leaves behind. -/
def finishRead (storeargs : Buf 1024) : Kernel :=
  { s with kbd := { s.kbd with bufKb := Buf.zero }, storeargs := storeargs }.setEnterFlag s.visible 1

/-- `terminal_read`: the return value, the bytes written to the caller's buffer, and the state.
`none` while it waits, when a scan leaves `buf_kb`, and for a negative byte count. -/
def terminalRead (nbytes : Int) : Option (Int × List UInt8 × Kernel) :=
  if s.ReadWaits then none
  else
    let buf := stripped s.kbd.bufKb
    let max := if 128 < nbytes then 128 else nbytes
    (argScan buf 128 0 ⟨Buf.zero, -1, 0, max⟩).bind fun (count, a) =>
      let max := readCount nbytes a.max count
      if max < 0 then none
      else some (max, buf.toList.take max.toNat, s.finishRead a.storeargs)

/-- `terminal_write`: the return value and the state. -/
def terminalWrite (bytes : List UInt8) : Int × Kernel :=
  (bytes.length, { s with con := s.con.putcs s.paging.videoFrame bytes })

end Kernel

/-- `terminal_getargs(dest, 1024)`. -/
def terminalGetargs (storeargs : Buf 1024) : Buf 1024 := storeargs.set 1023 (ch '\n')

/-- What a read that returns has found and done. -/
theorem terminalRead_eq {s s' : Kernel} {nbytes ret : Int} {bytes : List UInt8}
    (h : s.terminalRead nbytes = some (ret, bytes, s')) :
    ¬ s.ReadWaits ∧ ∃ count a,
      argScan (stripped s.kbd.bufKb) 128 0
        ⟨Buf.zero, -1, 0, if 128 < nbytes then 128 else nbytes⟩ = some (count, a) ∧
      0 ≤ ret ∧ ret = readCount nbytes a.max count ∧
      bytes = (stripped s.kbd.bufKb).toList.take ret.toNat ∧ s' = s.finishRead a.storeargs := by
  unfold Kernel.terminalRead at h
  split at h
  · cases h
  · rename_i hc
    obtain ⟨⟨count, a⟩, hscan, h⟩ := Option.bind_eq_some_iff.mp h
    simp only at h
    split at h
    · cases h
    · simp only [Option.some.injEq, Prod.mk.injEq] at h
      obtain ⟨rfl, rfl, rfl⟩ := h
      exact ⟨hc, count, a, hscan, by omega, rfl, rfl, rfl⟩

end Mp3
