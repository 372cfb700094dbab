import Mp3Os.Schedule

/-!
# The keyboard (`keyboard.c`)

One key event is one call of `keyboard_handler` with a scan code. The handler works on the
visible terminal: it takes that terminal's cursor, maps the window to the VGA page, edits the
line, and puts the scheduled terminal's cursor and window back.

A handler that faults does not return. `fault s` has the state at the fault: the page-fault
handler runs there (`System.lean`).
-/

namespace Mp3

/-! ## The character tables -/

private def quote : Char := Char.ofNat 39
private def backquote : Char := Char.ofNat 96
private def backslash : Char := Char.ofNat 92
private def dquote : Char := Char.ofNat 34
private def nul : Char := Char.ofNat 0

/-- `char_array`. -/
def charArray : List UInt8 := lit
  [nul, nul, '1', '2', '3', '4', '5', '6', '7', '8', '9', '0', '-', '=', nul, nul,
   'q', 'w', 'e', 'r', 't', 'y', 'u', 'i', 'o', 'p', '[', ']', nul, nul, 'a', 's',
   'd', 'f', 'g', 'h', 'j', 'k', 'l', ';', quote, backquote, nul, backslash, 'z', 'x', 'c', 'v',
   'b', 'n', 'm', ',', '.', '/', nul, '*', nul, ' ', nul]

/-- `char_array_shift_nocap`. -/
def charArrayShiftNocap : List UInt8 := lit
  [nul, nul, '!', '@', '#', '$', '%', '^', '&', '*', '(', ')', '_', '+', nul, nul,
   'Q', 'W', 'E', 'R', 'T', 'Y', 'U', 'I', 'O', 'P', '{', '}', nul, nul, 'A', 'S',
   'D', 'F', 'G', 'H', 'J', 'K', 'L', ':', dquote, '~', nul, '|', 'Z', 'X', 'C', 'V',
   'B', 'N', 'M', '<', '>', '?', nul, '*', nul, ' ', nul]

/-- `char_array_shift_cap`. -/
def charArrayShiftCap : List UInt8 := lit
  [nul, nul, '!', '@', '#', '$', '%', '^', '&', '*', '(', ')', '_', '+', nul, nul,
   'q', 'w', 'e', 'r', 't', 'y', 'u', 'i', 'o', 'p', '{', '}', nul, nul, 'a', 's',
   'd', 'f', 'g', 'h', 'j', 'k', 'l', ':', dquote, '~', nul, '|', 'z', 'x', 'c', 'v',
   'b', 'n', 'm', '<', '>', '?', nul, '*', nul, ' ', nul]

/-- `char_array_noshift_cap`. -/
def charArrayNoshiftCap : List UInt8 := lit
  [nul, nul, '1', '2', '3', '4', '5', '6', '7', '8', '9', '0', '-', '=', nul, nul,
   'Q', 'W', 'E', 'R', 'T', 'Y', 'U', 'I', 'O', 'P', '[', ']', nul, nul, 'A', 'S',
   'D', 'F', 'G', 'H', 'J', 'K', 'L', ';', quote, backquote, nul, backslash, 'Z', 'X', 'C', 'V',
   'B', 'N', 'M', ',', '.', '/', nul, '*', nul, ' ', nul]

/-- The character of a key, by the state of shift and caps lock; 0 for a key without one. -/
def keyChar (f : Flags) (scanCode : Nat) : UInt8 :=
  if f.lshift ≠ 0 ∨ f.rshift ≠ 0 then
    if f.caps ≠ 0 then charArrayShiftCap.getD scanCode 0
    else charArrayShiftNocap.getD scanCode 0
  else if f.caps ≠ 0 then charArrayNoshiftCap.getD scanCode 0
  else charArray.getD scanCode 0

/-- The codes of shift, Ctrl, caps lock and Alt: the new `flag_arr`. -/
def modifierKey (f : Flags) (scanCode : Nat) : Option Flags :=
  if scanCode = 0x2A then some { f with lshift := 1 }
  else if scanCode = 0xAA then some { f with lshift := 0 }
  else if scanCode = 0x36 then some { f with rshift := 1 }
  else if scanCode = 0xB6 then some { f with rshift := 0 }
  else if scanCode = 0x1D then some { f with ctrl := f.ctrl + 1 }
  else if scanCode = 0x9D then some { f with ctrl := f.ctrl - 1 }
  else if scanCode = 0x3A then some { f with caps := if f.caps ≠ 0 then 0 else 1 }
  else if scanCode = 0x38 then some { f with alt := f.alt + 1 }
  else if scanCode = 0xB8 then some { f with alt := f.alt - 1 }
  else none

/-- Alt with F1, F2 or F3: the key switches the visible terminal. -/
def isSwitch (f : Flags) (scanCode : Nat) : Prop :=
  (scanCode = 0x3B ∨ scanCode = 0x3C ∨ scanCode = 0x3D) ∧ f.alt ≠ 0

instance (f : Flags) (scanCode : Nat) : Decidable (isSwitch f scanCode) :=
  inferInstanceAs (Decidable (_ ∧ _))

/-! ## The line editor

What the handler does to the line and to the screen, once the window and the cursor are those of
the visible terminal. -/

/-- The erase loop of the Up key: `backspace` while both coordinates differ from the saved ones.
The cursor moves back at each round, so the cells before it bound the rounds. `false` when a
`backspace` faults. -/
def eraseLine (frame saveX saveY : Nat) : Nat → Console → Console × Bool
  | 0, c => (c, false)
  | fuel + 1, c =>
    if c.screenX ≠ saveX ∧ c.screenY ≠ saveY then
      match c.backspace frame with
      | none => (c, false)
      | some c' => eraseLine frame saveX saveY fuel c'
    else (c, true)

namespace Kbd

variable (k : Kbd)

/-- Up: the previous line becomes the line. -/
def recallLine : Kbd :=
  { k with bufKb := k.previousBuf, numChars := k.previousNumChars, currIdx := k.previousNumChars }

/-- Ctrl+L. -/
def clearLine : Kbd := { k with currIdx := 0, numChars := 0, bufKb := Buf.zero }

/-- Backspace. -/
def dropChar : Kbd := { k with currIdx := k.currIdx - 1, numChars := k.numChars - 1 }

/-- Enter: a non-empty line is kept as the previous one. -/
def finishLine : Kbd :=
  let k := if k.numChars ≠ 0 then
      { k with
        previousBuf := Buf.copyPrefix Buf.zero k.bufKb k.numChars
        previousNumChars := k.numChars }
    else k
  { k with bufKb := k.bufKb.set k.currIdx (ch '\n'), currIdx := 0, numChars := 0 }

/-- `save_x`, `save_y` when `strlen(buf_kb) == 0`. -/
def notePosition (x y : Nat) : Kbd :=
  if k.bufKb.getD 0 = 0 then { k with saveX := x, saveY := y } else k

/-- A character goes into the line. -/
def addChar (b : UInt8) : Kbd :=
  { k with bufKb := k.bufKb.set k.currIdx b, currIdx := k.currIdx + 1, numChars := k.numChars + 1 }

end Kbd

namespace Kernel

variable (s : Kernel)

/-- The handler takes the visible terminal's cursor and the VGA page. -/
def beginKey : Kernel :=
  let s := (s.saveScreen s.curTerminal).loadScreen s.visible
  { s with paging := s.paging.mapVideoPage 0 }

/-- The handler puts the scheduled terminal's window and cursor back. -/
def endKey : Kernel :=
  let s := s.mapWindow
  let s := s.saveScreen s.visible
  s.loadScreen s.curTerminal

/-- The case `UP_DOWN` between `beginKey` and `endKey`. -/
def upKey (st : Stack) : Outcome :=
  let frame := s.paging.videoFrame
  let (con, erased) := eraseLine frame s.kbd.saveX s.kbd.saveY
    (80 * s.con.screenY + s.con.screenX + 1) s.con
  if erased then
    let kbd := s.kbd.recallLine
    let format : Nat → UInt8 := fun i => if i < 128 then kbd.bufKb.getD i else st.after (i - 128)
    let out := printfOut format st
    let s := { s with kbd := kbd, con := con.putcs frame out.chars }
    if out.faults then .fault s else .ret s
  else .fault { s with con := con }

/-- A character key between `beginKey` and `endKey`. -/
def charKey (scanCode : Nat) : Kernel :=
  let frame := s.paging.videoFrame
  let kbd := s.kbd.notePosition s.con.screenX s.con.screenY
  let b := keyChar s.flags scanCode
  if b ≠ 0 then { s with con := s.con.putc frame b, kbd := kbd.addChar b }
  else { s with kbd := kbd }

/-- Ctrl+L between `beginKey` and `endKey`. -/
def clearKey : Kernel :=
  { s with con := s.con.clearKb s.paging.videoFrame, kbd := s.kbd.clearLine }

/-- Backspace between `beginKey` and `endKey`. -/
def backKey : Outcome :=
  match s.con.backspace s.paging.videoFrame with
  | none => .fault s
  | some con => .ret { s with con := con, kbd := s.kbd.dropChar }

/-- Enter between `beginKey` and `endKey`. -/
def enterKey : Kernel :=
  { s with kbd := s.kbd.finishLine, con := s.con.putc s.paging.videoFrame (ch '\n') }.setEnterFlag
    s.visible 0

/-- The keys other than Up between `beginKey` and `endKey`. -/
def editKey (scanCode : Nat) : Outcome :=
  if s.flags.ctrl ≠ 0 ∧ scanCode = 0x26 then .ret s.clearKey
  else if scanCode = 0x0E ∧ s.kbd.currIdx ≠ 0 then s.backKey
  else if scanCode = 0x1C then .ret s.enterKey
  else if isSwitch s.flags scanCode then .ret (s.switchTerminal (scanCode - 0x3B))
  else if s.kbd.numChars < 127 ∧ 0 < scanCode ∧ scanCode < 0x3B then .ret (s.charKey scanCode)
  else .ret s

/-- `keyboard_handler`. -/
def keyboardHandler (scanCode : Nat) (st : Stack) : Outcome :=
  match modifierKey s.flags scanCode with
  | some flags => .ret { s with flags := flags }
  | none =>
    let s := s.beginKey
    match if scanCode = 0x48 then s.upKey st else s.editKey scanCode with
    | .ret s' => .ret s'.endKey
    | .fault s' => .fault s'

/-! ## What a key leaves alone -/

/-- The two states differ in the screen, the line, the modifiers, the mappings and the terminals
only. -/
def DiffersInTerminals (s s' : Kernel) : Prop :=
  ∃ con kbd flags paging terminals visible, s' = { s with
    con := con
    kbd := kbd
    flags := flags
    paging := paging
    terminals := terminals
    visible := visible }

variable {s}

theorem DiffersInTerminals.trans {s₁ s₂ s₃ : Kernel} (h₁ : DiffersInTerminals s₁ s₂)
    (h₂ : DiffersInTerminals s₂ s₃) : DiffersInTerminals s₁ s₃ := by
  obtain ⟨_, _, _, _, _, _, rfl⟩ := h₁
  obtain ⟨_, _, _, _, _, _, rfl⟩ := h₂
  exact ⟨_, _, _, _, _, _, rfl⟩

theorem switchTerminal_differs (d : Int) : s.DiffersInTerminals (s.switchTerminal d) := by
  unfold switchTerminal
  split_ifs <;> exact ⟨_, _, _, _, _, _, rfl⟩

theorem upKey_differs (st : Stack) : s.DiffersInTerminals (s.upKey st).state := by
  unfold upKey
  dsimp only
  split_ifs <;> exact ⟨_, _, _, _, _, _, rfl⟩

theorem editKey_differs (c : Nat) : s.DiffersInTerminals (s.editKey c).state := by
  have hback : s.DiffersInTerminals s.backKey.state := by
    unfold backKey
    split <;> exact ⟨_, _, _, _, _, _, rfl⟩
  have hchar : s.DiffersInTerminals (s.charKey c) := by
    unfold charKey
    dsimp only
    split_ifs <;> exact ⟨_, _, _, _, _, _, rfl⟩
  unfold editKey
  split_ifs
  · exact ⟨_, _, _, _, _, _, rfl⟩
  · exact hback
  · exact ⟨_, _, _, _, _, _, rfl⟩
  · exact switchTerminal_differs _
  · exact hchar
  · exact ⟨_, _, _, _, _, _, rfl⟩

/-- **A key changes what belongs to terminals and nothing else.** -/
theorem keyboardHandler_differs (c : Nat) (st : Stack) :
    s.DiffersInTerminals (s.keyboardHandler c st).state := by
  unfold keyboardHandler
  split
  · exact ⟨_, _, _, _, _, _, rfl⟩
  · have hbegin : s.DiffersInTerminals s.beginKey := ⟨_, _, _, _, _, _, rfl⟩
    have hkey : s.DiffersInTerminals
        (if c = 0x48 then s.beginKey.upKey st else s.beginKey.editKey c).state := by
      split
      · exact hbegin.trans (upKey_differs st)
      · exact hbegin.trans (editKey_differs c)
    dsimp only
    split
    · rename_i u hu
      rw [hu] at hkey
      exact hkey.trans ⟨_, _, _, _, _, _, rfl⟩
    · rename_i u hu
      rw [hu] at hkey
      exact hkey

end Kernel

end Mp3
