import Mp3Os.Process

/-!
# Terminals and the scheduler (`schedule.c`)

`cur_terminal` is the terminal whose process runs, `visible` the one on the screen; they move
independently. `pit_handler` saves the running process and resumes the process of the next
terminal. On its first three calls it starts the base shell of the next terminal instead, and
does not return when that reaches user mode.
-/

namespace Mp3

/-- The outcome of `pit_handler`: a base shell runs, or the process of the scheduled terminal
resumes with `esp` and `ebp`. -/
inductive PitResult where
  | user (s : Kernel)
  | resume (s : Kernel) (esp ebp : UInt32)

/-- What `switch_terminal` saves of a terminal: its cursor and its line, in 8-bit fields. -/
def Terminal.save (t : Terminal) (c : Console) (k : Kbd) : Terminal :=
  { t with
    screenX := c.screenX % 256
    screenY := c.screenY % 256
    currIdx := k.currIdx % 256
    numChars := k.numChars % 256
    saveX := k.saveX % 256
    saveY := k.saveY % 256
    prevNumChars := k.previousNumChars % 256
    prevBuf := k.previousBuf
    bufKb := k.bufKb }

/-- The line that `switch_terminal` restores. -/
def Terminal.line (t : Terminal) : Kbd where
  bufKb := t.bufKb
  currIdx := t.currIdx
  numChars := t.numChars
  saveX := t.saveX
  saveY := t.saveY
  previousBuf := t.prevBuf
  previousNumChars := t.prevNumChars

namespace Kernel

variable (s : Kernel)

/-- `init_terminals`. -/
def initTerminals : Kernel :=
  { s with
    terminals := fun i =>
      if 0 ≤ i ∧ i < 3 then
        { s.terminals i with
          shellPid := i
          videoBuffer := 0xB8000 + 4096 * (i.toNat + 1)
          screenStart := 0
          bufKb := Buf.zero
          screenX := 0
          screenY := 0
          currIdx := 0
          numChars := 0
          saveX := 0
          saveY := 0
          prevNumChars := 0
          prevBuf := Buf.zero
          currProcess := -1
          enterFlag := 1 }
      else s.terminals i
    con := { s.con with vram := fun a =>
      if 0xB9000 ≤ a ∧ a < 0xBC000 then 0 else s.con.vram a }
    curTerminal := 2
    visible := 0
    pitIntrCount := 0 }

/-- `init_PIT`. -/
def initPIT : Kernel := { s with pitCount := 0, pitIntrCount := 0 }

/-- The first half of `switch_terminal`: what the visible terminal leaves. -/
def saveVisible : Kernel :=
  let t := s.terminals s.visible
  let s' := s.modTerm s.visible fun t => t.save s.con s.kbd
  let uvpt := Function.update s.paging.userVideoPageTable s.visible.toNat (t.videoBuffer ||| 7)
  { s' with
    paging := { s.paging with userVideoPageTable := uvpt }
    con := s.con.copyPage (t.videoBuffer / 4096) s.paging.videoFrame }

/-- The second half of `switch_terminal`: what the terminal `dest` gets back. -/
def restoreTerminal (dest : Int) : Kernel :=
  let t := s.terminals dest
  let con := s.con.setCursor t.screenX t.screenY
  let con := con.setScreenxy t.screenX t.screenY
  let uvpt := Function.update s.paging.userVideoPageTable dest.toNat (0xB8000 ||| 7)
  { s with
    kbd := t.line
    con := con.copyPage s.paging.videoFrame (t.videoBuffer / 4096)
    paging := { s.paging with userVideoPageTable := uvpt }
    visible := dest }

/-- `switch_terminal`. -/
def switchTerminal (terminalDest : Int) : Kernel :=
  if terminalDest = s.visible then s
  else if terminalDest > 3 then s
  else s.saveVisible.restoreTerminal terminalDest

/-- `terminals[t].screen_x = get_screen_x()` and the same for `y`. -/
def saveScreen (t : Int) : Kernel :=
  s.modTerm t fun r => { r with screenX := s.con.screenX % 256, screenY := s.con.screenY % 256 }

/-- `set_screenxy(terminals[t].screen_x, terminals[t].screen_y)`. -/
def loadScreen (t : Int) : Kernel :=
  { s with con := s.con.setScreenxy (s.terminals t).screenX (s.terminals t).screenY }

/-- The window shows the screen of the visible terminal, or the buffer of the scheduled one. -/
def mapWindow : Kernel :=
  { s with paging := s.paging.mapVideoPage (if s.curTerminal = s.visible then 0 else 1 + s.curTerminal) }

/-- `clear()`. -/
def clearScreen : Kernel := { s with con := s.con.clear s.paging.videoFrame }

/-- `pitIntrCount++` and `test_interrupts`. -/
def countInterrupt : Kernel :=
  let pitIntrCount := (s.pitIntrCount + 1) % 256
  { s with
    pitIntrCount := pitIntrCount
    con := s.con.testInterrupts s.paging.videoFrame pitIntrCount }

/-- The TSS goes to the scheduled terminal, `esp` and `ebp` to its process. -/
def saveTask (esp ebp : UInt32) : Kernel :=
  (s.modTerm s.curTerminal fun t => { t with saveTss := s.tss }).modPcb s.curr fun b =>
    { b with taskEsp := esp, taskEbp := ebp }

/-- The start of `pit_handler`: the running process is saved and the next terminal is
scheduled. -/
def deschedule (esp ebp : UInt32) : Kernel :=
  let s := s.countInterrupt.saveTask esp ebp
  let s := s.saveScreen s.curTerminal
  { s with curTerminal := (s.curTerminal + 1) % 3 }

/-- The end of `pit_handler`: the process of the scheduled terminal resumes. -/
def reschedule : PitResult :=
  let esp := (s.pcbs s.curr).taskEsp
  let ebp := (s.pcbs s.curr).taskEbp
  let s := { s with tss := (s.terminals s.curTerminal).saveTss }
  let s := s.mapWindow
  let s := s.loadScreen s.curTerminal
  .resume (s.mapProcess s.curr) esp ebp

/-- `clear()`, the new cursor goes to the scheduled terminal, and `pitCount++`. -/
def freshScreen : Kernel :=
  { s.clearScreen.saveScreen s.curTerminal with pitCount := s.pitCount + 1 }

/-- The middle of `pit_handler` while base shells are to be started, up to the call of
`execute`. -/
def prepareShell : Kernel := (s.switchTerminal s.pitCount).freshScreen

/-- `pit_handler`. -/
def pitHandler (esp ebp : UInt32) (x : ExecIn) : PitResult :=
  let s := s.deschedule esp ebp
  if s.pitCount < 3 then
    match s.prepareShell.execute shellName x with
    | .user s' => .user s'
    | .fail s' => s'.reschedule
  else if s.pitCount = 3 then
    let s := s.switchTerminal 0
    { s with pitCount := s.pitCount + 1 }.reschedule
  else s.reschedule

variable {s}

theorem switchTerminal_visible : s.switchTerminal s.visible = s := if_pos rfl

theorem switchTerminal_of_ne {d : Int} (hv : d ≠ s.visible) (hd : d ≤ 3) :
    s.switchTerminal d = s.saveVisible.restoreTerminal d := by
  unfold switchTerminal
  rw [if_neg hv, if_neg (by omega)]

/-- The four ways through `pit_handler`. -/
theorem pitHandler_cases (esp ebp : UInt32) (x : ExecIn) :
    (∃ u, s.pitCount < 3 ∧ (s.deschedule esp ebp).prepareShell.execute shellName x = .user u ∧
      s.pitHandler esp ebp x = .user u) ∨
    (∃ u, s.pitCount < 3 ∧ (s.deschedule esp ebp).prepareShell.execute shellName x = .fail u ∧
      s.pitHandler esp ebp x = u.reschedule) ∨
    (s.pitCount = 3 ∧ s.pitHandler esp ebp x =
      { (s.deschedule esp ebp).switchTerminal 0 with pitCount := 4 }.reschedule) ∨
    (3 < s.pitCount ∧ s.pitHandler esp ebp x = (s.deschedule esp ebp).reschedule) := by
  have hd : (s.deschedule esp ebp).pitCount = s.pitCount := rfl
  have hsw : ((s.deschedule esp ebp).switchTerminal 0).pitCount = s.pitCount := by
    unfold switchTerminal
    split_ifs <;> rfl
  unfold pitHandler
  simp only [hd]
  rcases Nat.lt_trichotomy s.pitCount 3 with h | h | h
  · rw [if_pos h]
    cases he : (s.deschedule esp ebp).prepareShell.execute shellName x with
    | user u => exact .inl ⟨u, h, rfl, rfl⟩
    | fail u => exact .inr (.inl ⟨u, h, rfl, rfl⟩)
  · rw [if_neg (by omega), if_pos h]
    exact .inr (.inr (.inl ⟨h, by rw [hsw, h]⟩))
  · rw [if_neg (by omega), if_neg (by omega)]
    exact .inr (.inr (.inr ⟨h, rfl⟩))

end Kernel

end Mp3
