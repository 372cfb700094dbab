import Mp3Os.Types

/-!
# The console (`lib.c`)

The functions that write the video page: `clear`, `clear_kb`, `backspace`, `putc`, `puts`,
`printf`. Each gets the frame that the window at `VIDEO` shows (`Paging.videoFrame`), since all
of them write through that window.

`backspace` in the top left corner stores at `VIDEO - 2`. That page is never present, so the
store faults: `none`.

`printfOut` is the sequence of characters that `printf` passes to `putc`. The caller passes
arguments on the stack, so `Stack` says what the words after the format pointer are, what string
lies at an address (`none` when reading it faults), and what follows the format in memory.
-/

namespace Mp3

/-- `ATTRIB`. -/
def attrib : UInt8 := 0x7

/-- A character of the source as a byte. -/
def ch (c : Char) : UInt8 := UInt8.ofNat c.toNat

/-- The bytes of a string literal of the source. -/
def lit (s : List Char) : List UInt8 := s.map ch

namespace Console

variable (c : Console) (frame : Nat)

/-- `update_cursor`: the position goes to the VGA registers as a `uint16_t`. -/
def updateCursor : Console := { c with cursor := (c.screenY * 80 + c.screenX) % 65536 }

/-- A character and its attribute in cell `i` of the page. -/
def putCell (i : Nat) (b : UInt8) : Console :=
  { c with vram := fun a =>
      if a = frame * 4096 + 2 * i then b
      else if a = frame * 4096 + 2 * i + 1 then attrib else c.vram a }

/-- The loop of `clear` and `clear_kb`: a space in every cell. -/
def blank : Console :=
  { c with vram := fun a =>
      if frame * 4096 ≤ a ∧ a < frame * 4096 + 4000 then
        if (a - frame * 4096) % 2 = 0 then 32 else attrib
      else c.vram a }

/-- `clear_kb`. -/
def clearKb : Console := { c.blank frame with screenX := 0, screenY := 0 }.updateCursor

/-- `clear`. -/
def clear : Console := (c.blank frame).clearKb frame

/-- `backspace`. -/
def backspace : Option Console :=
  if c.screenX = 0 ∧ c.screenY = 0 then none
  else
    let c' := c.putCell frame (80 * c.screenY + c.screenX - 1) 32
    if c.screenX ≠ 0 then some { c' with screenX := c.screenX - 1 }.updateCursor
    else some { c' with screenX := 79, screenY := c.screenY - 1 }.updateCursor

/-- Row `r` moves to row `r - 1`, and the last row is blank. -/
def scroll : Console :=
  { c with vram := fun a =>
      if frame * 4096 ≤ a ∧ a < frame * 4096 + 3840 then c.vram (a + 160)
      else if frame * 4096 + 3840 ≤ a ∧ a < frame * 4096 + 4000 then
        if (a - frame * 4096) % 2 = 0 then 32 else attrib
      else c.vram a }

/-- The branch of `putc` for a newline. -/
def newline : Console :=
  if c.screenY = 24 then { c.scroll frame with screenX := 0 }
  else { c with screenY := c.screenY + 1, screenX := 0 }

/-- `putc`. In the last cell it calls itself with a newline. -/
def putc (b : UInt8) : Console :=
  if b = ch '\n' ∨ b = ch '\r' then (c.newline frame).updateCursor
  else if c.screenY = 24 ∧ c.screenX = 79 then
    let c' := { c.putCell frame (80 * c.screenY + c.screenX) b with screenX := c.screenX + 1 }
    ((c'.newline frame).updateCursor).updateCursor
  else
    let c' := c.putCell frame (80 * c.screenY + c.screenX) b
    { c' with
      screenX := (c.screenX + 1) % 80
      screenY := (c.screenY + (c.screenX + 1) / 80) % 25 }.updateCursor

/-- `putc` of each byte in turn. -/
def putcs (bs : List UInt8) : Console := bs.foldl (fun c b => c.putc frame b) c

/-- `test_interrupts`: the attribute bytes grow by `pitIntrCount`. -/
def testInterrupts (pitIntrCount : Nat) : Console :=
  { c with vram := fun a =>
      if frame * 4096 ≤ a ∧ a < frame * 4096 + 4000 ∧ (a - frame * 4096) % 2 = 1 then
        c.vram a + UInt8.ofNat pitIntrCount
      else c.vram a }

/-- `set_screenxy`. -/
def setScreenxy (x y : Nat) : Console := { c with screenX := x, screenY := y }

/-- `set_cursor`. -/
def setCursor (x y : Nat) : Console := { c with screenX := x, screenY := y }.updateCursor

/-- `memcpy` of a whole page of video memory. -/
def copyPage (dst src : Nat) : Console :=
  { c with vram := fun a =>
      if dst * 4096 ≤ a ∧ a < dst * 4096 + 4096 then c.vram (src * 4096 + (a - dst * 4096))
      else c.vram a }

end Console

/-! ## `printf` -/

/-- What a call of `printf` finds in memory. -/
structure Stack where
  word : Nat → UInt32
  string : UInt32 → Option (List UInt8)
  after : Nat → UInt8

/-- The characters that `printf` prints, and whether it faults after them. -/
structure Output where
  chars : List UInt8
  faults : Bool

/-- `more` printed before the rest. -/
def Output.before (more : List UInt8) (o : Output) : Output := { o with chars := more ++ o.chars }

/-- The digit loop of `itoa`, least significant digit first. -/
def itoaDigits (radix : Nat) : Nat → Nat → List UInt8
  | 0, _ => []
  | fuel + 1, newval =>
    if newval = 0 then []
    else
      let i := newval % radix
      (if i < 10 then UInt8.ofNat (48 + i) else UInt8.ofNat (55 + i)) ::
        itoaDigits radix fuel (newval / radix)

/-- `itoa`: the string it leaves in its buffer. -/
def itoa (value radix : Nat) : List UInt8 :=
  if value = 0 then [ch '0'] else (itoaDigits radix value value).reverse

mutual
/-- The loop of `printf` from the format byte `pos` on; `arg` is the index of the next
argument. -/
def printfGo (format : Nat → UInt8) (st : Stack) : Nat → Nat → Nat → Output
  | 0, _, _ => ⟨[], false⟩
  | fuel + 1, pos, arg =>
    if format pos = 0 then ⟨[], false⟩
    else if format pos = ch '%' then printfConv format st fuel (pos + 1) arg false
    else (printfGo format st fuel (pos + 1) arg).before [format pos]

/-- The conversion at the format byte `pos` (`format_char_switch`). -/
def printfConv (format : Nat → UInt8) (st : Stack) : Nat → Nat → Nat → Bool → Output
  | 0, _, _, _ => ⟨[], false⟩
  | fuel + 1, pos, arg, alternate =>
    let v := (st.word arg).toNat
    if format pos = ch '%' then (printfGo format st fuel (pos + 1) arg).before [ch '%']
    else if format pos = ch '#' then printfConv format st fuel (pos + 1) arg true
    else if format pos = ch 'x' then
      let digits := itoa v 16
      let padded :=
        if alternate then List.replicate (8 - digits.length) (ch '0') ++ digits else digits
      (printfGo format st fuel (pos + 1) (arg + 1)).before padded
    else if format pos = ch 'u' then (printfGo format st fuel (pos + 1) (arg + 1)).before (itoa v 10)
    else if format pos = ch 'd' then
      let value := i32 v
      let text := if value < 0 then ch '-' :: itoa (u32 (-value)) 10 else itoa v 10
      (printfGo format st fuel (pos + 1) (arg + 1)).before text
    else if format pos = ch 'c' then
      (printfGo format st fuel (pos + 1) (arg + 1)).before [UInt8.ofNat v]
    else if format pos = ch 's' then
      match st.string (st.word arg) with
      | none => ⟨[], true⟩
      | some text => (printfGo format st fuel (pos + 1) (arg + 1)).before text
    else printfGo format st fuel (pos + 1) arg
end

/-- `printf(format, ...)`. The format lies in a 32-bit address space, so `2 ^ 32` rounds see all
of it. -/
def printfOut (format : Nat → UInt8) (st : Stack) : Output := printfGo format st 4294967296 0 0

end Mp3
