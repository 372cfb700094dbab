import Mp3Os.Drawing

/-!
# What a key does

`KbState` is the state of one keyboard driver: the line and the flag that a finished line waits.
`KbState.press` is what a key does to it; the driver gets the modifier flags and the cursor of
its terminal.

`keyboardHandler_ret` cuts `keyboard_handler` into its three ways: a modifier key changes the
flags, Alt with F1 to F3 switches, and any other key presses on the driver of the visible terminal
and draws on its page.

`CursorsOk` is the invariant for the cursors: `cursorsOk_step` has it for every event. So the
8-bit fields in which `terminal_t` keeps a cursor lose nothing of it.
-/

namespace Mp3

open Console (Draws)

/-- The state of a keyboard driver. -/
@[ext] structure KbState where
  kbd : Kbd
  enterFlag : Int

namespace KbState

variable (k : KbState) (f : Flags) (x y scanCode : Nat)

/-- The keys other than Up. -/
def edit : KbState :=
  if f.ctrl ≠ 0 ∧ scanCode = 0x26 then { k with kbd := k.kbd.clearLine }
  else if scanCode = 0x0E ∧ k.kbd.currIdx ≠ 0 then { k with kbd := k.kbd.dropChar }
  else if scanCode = 0x1C then ⟨k.kbd.finishLine, 0⟩
  else if isSwitch f scanCode then k
  else if k.kbd.numChars < 127 ∧ 0 < scanCode ∧ scanCode < 0x3B then
    let kbd := k.kbd.notePosition x y
    if keyChar f scanCode ≠ 0 then { k with kbd := kbd.addChar (keyChar f scanCode) }
    else { k with kbd := kbd }
  else k

/-- What a key does to the driver of the visible terminal, whose cursor is at `x`, `y`. -/
def press : KbState :=
  if (modifierKey f scanCode).isSome then k
  else if scanCode = 0x48 then { k with kbd := k.kbd.recallLine }
  else k.edit f x y scanCode

end KbState

namespace Kernel

variable (s : Kernel)

/-- The driver whose line is in the globals. -/
def activeKb : KbState := ⟨s.kbd, (s.terminals s.visible).enterFlag⟩

/-- The visible terminal has drawn, and its driver has another state. -/
def edited (con : Console) (k : KbState) : Kernel :=
  { s with con := con, kbd := k.kbd }.setEnterFlag s.visible k.enterFlag

/-- The cursors of all terminals are on the screen. -/
structure CursorsOk : Prop where
  con : s.con.InRange
  saved : ∀ t, (s.terminals t).screenX < 80 ∧ (s.terminals t).screenY < 25

end Kernel

section Ways

variable {s s' : Kernel} {c : Nat} {st : Stack}

/-- An edit that leaves the flag alone. -/
theorem edited_kbd (con : Console) (kbd : Kbd) :
    s.edited con ⟨kbd, s.activeKb.enterFlag⟩ = { s with con := con, kbd := kbd } := by
  simp [Kernel.edited, Kernel.activeKb, Kernel.setEnterFlag, Kernel.modTerm]

theorem upKey_draws (h : s.con.InRange) (st : Stack) :
    ∃ con kbd, Draws s.paging.videoFrame s.con con ∧ (kbd = s.kbd ∨ kbd = s.kbd.recallLine) ∧
      (s.upKey st).state = { s with con := con, kbd := kbd } ∧
      ((∃ s', s.upKey st = .ret s') → kbd = s.kbd.recallLine) := by
  have he : Draws s.paging.videoFrame s.con _ := Console.eraseLine_draws h s.kbd.saveX s.kbd.saveY
    (80 * s.con.screenY + s.con.screenX + 1)
  unfold Kernel.upKey
  dsimp only
  split
  · have hd := he.trans (Console.putcs_draws he.inRange
      (printfOut (fun i => if i < 128 then s.kbd.recallLine.bufKb.getD i else st.after (i - 128)) st).chars)
    refine ⟨_, _, hd, .inr rfl, ?_, fun _ => rfl⟩
    split <;> rfl
  · refine ⟨_, _, he, .inl rfl, rfl, ?_⟩
    rintro ⟨s', hs'⟩
    cases hs'

theorem backKey_draws (h : s.con.InRange) :
    s.backKey = .fault s ∨ ∃ con, Draws s.paging.videoFrame s.con con ∧
      s.backKey = .ret { s with con := con, kbd := s.kbd.dropChar } := by
  unfold Kernel.backKey
  split
  · exact .inl rfl
  · rename_i con hb
    exact .inr ⟨con, Console.backspace_draws h hb, rfl⟩

theorem charKey_draws (h : s.con.InRange) :
    ∃ con, Draws s.paging.videoFrame s.con con ∧ s.charKey c =
      { s with
        con := con
        kbd := if keyChar s.flags c ≠ 0 then
            (s.kbd.notePosition s.con.screenX s.con.screenY).addChar (keyChar s.flags c)
          else s.kbd.notePosition s.con.screenX s.con.screenY } := by
  unfold Kernel.charKey
  dsimp only
  split
  · exact ⟨_, Console.putc_draws h _, rfl⟩
  · exact ⟨_, .refl h, rfl⟩

/-- A key other than Up that does not switch: it faults and does nothing, or it edits. -/
theorem editKey_draws (h : s.con.InRange) (hs : ¬ isSwitch s.flags c) :
    s.editKey c = .fault s ∨ ∃ con, Draws s.paging.videoFrame s.con con ∧
      s.editKey c = .ret (s.edited con (s.activeKb.edit s.flags s.con.screenX s.con.screenY c)) := by
  have hkbd : s.activeKb.kbd = s.kbd := rfl
  unfold Kernel.editKey KbState.edit
  by_cases hctrl : s.flags.ctrl ≠ 0 ∧ c = 0x26
  · simp only [if_pos hctrl]
    exact .inr ⟨_, Console.clearKb_draws, congrArg _ (edited_kbd ..).symm⟩
  simp only [if_neg hctrl]
  by_cases hback : c = 0x0E ∧ s.kbd.currIdx ≠ 0
  · rw [← hkbd] at hback
    simp only [if_pos hback, if_pos (hkbd ▸ hback)]
    rcases backKey_draws h with hf | ⟨con, hd, hr⟩
    · exact .inl hf
    · exact .inr ⟨con, hd, hr.trans (congrArg _ (edited_kbd ..).symm)⟩
  simp only [if_neg hback, if_neg (hkbd ▸ hback)]
  by_cases henter : c = 0x1C
  · simp only [if_pos henter]
    exact .inr ⟨_, Console.putc_draws h _, rfl⟩
  simp only [if_neg henter, if_neg hs]
  by_cases hchar : s.kbd.numChars < 127 ∧ 0 < c ∧ c < 0x3B
  · simp only [if_pos hchar, if_pos (hkbd ▸ hchar)]
    obtain ⟨con, hd, hr⟩ := charKey_draws (c := c) h
    refine .inr ⟨con, hd, ?_⟩
    rw [hr, ← edited_kbd]
    dsimp only [Kernel.activeKb]
    split <;> rfl
  · simp only [if_neg hchar, if_neg (hkbd ▸ hchar)]
    exact .inr ⟨_, .refl h, congrArg _ (edited_kbd ..).symm⟩

/-- A key that switches. -/
theorem editKey_switch (h : isSwitch s.flags c) :
    s.editKey c = .ret (s.switchTerminal (c - 0x3B)) := by
  have hc : c = 0x3B ∨ c = 0x3C ∨ c = 0x3D := h.1
  unfold Kernel.editKey
  rw [if_neg (by omega), if_neg (by omega), if_neg (by omega), if_pos h]

end Ways

/-! ## The cursors stay on the screen -/

section Cursors

variable {s s' : Kernel} {c : Nat} {st : Stack}

namespace Kernel.CursorsOk

theorem modTerm (h : s.CursorsOk) {t : Int} {f : Terminal → Terminal}
    (hx : (f (s.terminals t)).screenX < 80) (hy : (f (s.terminals t)).screenY < 25) :
    (s.modTerm t f).CursorsOk := by
  refine ⟨h.con, fun u => ?_⟩
  by_cases hu : u = t
  · subst hu
    simpa [Kernel.modTerm] using ⟨hx, hy⟩
  · simpa [Kernel.modTerm, hu] using h.saved u

theorem draw (h : s.CursorsOk) {con : Console} (hc : con.InRange) :
    { s with con := con }.CursorsOk :=
  ⟨hc, h.saved⟩

theorem saveScreen (h : s.CursorsOk) (t : Int) : (s.saveScreen t).CursorsOk :=
  h.modTerm ((Nat.mod_le ..).trans_lt h.con.x) ((Nat.mod_le ..).trans_lt h.con.y)

theorem loadScreen (h : s.CursorsOk) (t : Int) : (s.loadScreen t).CursorsOk :=
  h.draw ⟨(h.saved t).1, (h.saved t).2⟩

theorem setEnterFlag (h : s.CursorsOk) (t v : Int) : (s.setEnterFlag t v).CursorsOk :=
  h.modTerm (h.saved t).1 (h.saved t).2

theorem print (h : s.CursorsOk) (text : List UInt8) : (s.print text).CursorsOk :=
  h.draw (Console.putcs_draws h.con text).inRange

theorem beginKey (h : s.CursorsOk) : s.beginKey.CursorsOk := by
  have h' := (h.saveScreen s.curTerminal).loadScreen s.visible
  exact ⟨h'.con, h'.saved⟩

theorem endKey (h : s.CursorsOk) : s.endKey.CursorsOk := by
  have h' : s.mapWindow.CursorsOk := ⟨h.con, h.saved⟩
  exact (h'.saveScreen s.visible).loadScreen s.curTerminal

theorem switchTerminal (h : s.CursorsOk) (d : Int) : (s.switchTerminal d).CursorsOk := by
  unfold Kernel.switchTerminal
  split_ifs
  · exact h
  · exact h
  · have h' := h.modTerm (t := s.visible) (f := fun t => t.save s.con s.kbd)
      ((Nat.mod_le ..).trans_lt h.con.x) ((Nat.mod_le ..).trans_lt h.con.y)
    exact ⟨⟨(h'.saved d).1, (h'.saved d).2⟩, h'.saved⟩

theorem leaveTerminal (h : s.CursorsOk) : s.leaveTerminal.CursorsOk := by
  have h' : s.countInterrupt.CursorsOk := ⟨⟨h.con.x, h.con.y⟩, h.saved⟩
  exact ⟨(h'.saveScreen s.curTerminal).con, (h'.saveScreen s.curTerminal).saved⟩

theorem enterTerminal (h : s.CursorsOk) : s.enterTerminal.CursorsOk := by
  have h' : s.mapWindow.CursorsOk := ⟨h.con, h.saved⟩
  exact h'.loadScreen s.curTerminal

theorem freshScreen (h : s.CursorsOk) : s.freshScreen.CursorsOk := by
  have h' : s.clearScreen.CursorsOk := h.draw Console.clear_draws.inRange
  exact ⟨(h'.saveScreen s.curTerminal).con, (h'.saveScreen s.curTerminal).saved⟩

theorem prepareShell (h : s.CursorsOk) : s.prepareShell.CursorsOk :=
  (h.switchTerminal s.pitCount).freshScreen

theorem edited (h : s.CursorsOk) {con : Console} (hc : con.InRange) (k : KbState) :
    (s.edited con k).CursorsOk := by
  have h' : { s with con := con, kbd := k.kbd }.CursorsOk := ⟨hc, h.saved⟩
  exact h'.setEnterFlag s.visible k.enterFlag

end Kernel.CursorsOk

theorem beginKey_videoFrame : s.beginKey.paging.videoFrame = 0xB8 :=
  Paging.mapVideoPage_videoFrame _ (by decide) (by decide)

/-- **The ways of a key whose handler returns.** -/
theorem keyboardHandler_ret (h : s.CursorsOk) (hr : s.keyboardHandler c st = .ret s') :
    (∃ f, modifierKey s.flags c = some f ∧ s' = { s with flags := f }) ∨
    (modifierKey s.flags c = none ∧ isSwitch s.flags c ∧
      s' = (s.beginKey.switchTerminal (c - 0x3B)).endKey) ∨
    (modifierKey s.flags c = none ∧ ¬ isSwitch s.flags c ∧
      ∃ con, Draws 0xB8 s.beginKey.con con ∧ s' = (s.beginKey.edited con
        (s.beginKey.activeKb.press s.flags s.beginKey.con.screenX s.beginKey.con.screenY c)).endKey) := by
  have hb := h.beginKey.con
  unfold Kernel.keyboardHandler at hr
  split at hr
  · rename_i f hf
    cases hr
    exact .inl ⟨f, hf, rfl⟩
  rename_i hm
  dsimp only at hr
  split at hr
  · rename_i u hu
    cases hr
    refine .inr ?_
    rw [KbState.press, hm, ← beginKey_videoFrame (s := s)]
    split at hu
    · rename_i hup
      obtain ⟨con, kbd, hd, -, hst, hret⟩ := upKey_draws hb st
      obtain rfl := hret ⟨u, hu⟩
      rw [hu] at hst
      refine .inr ⟨rfl, fun hs => ?_, con, hd, ?_⟩
      · have := hs.1
        omega
      · rw [if_neg (by decide), if_pos hup, edited_kbd]
        exact congrArg Kernel.endKey hst
    · rename_i hup
      by_cases hs : isSwitch s.flags c
      · refine .inl ⟨rfl, hs, ?_⟩
        rw [editKey_switch (s := s.beginKey) hs] at hu
        cases hu
        rfl
      · rcases editKey_draws (s := s.beginKey) hb hs with hf | ⟨con, hd, he⟩
        · rw [hf] at hu
          cases hu
        · rw [he] at hu
          cases hu
          refine .inr ⟨rfl, hs, con, hd, ?_⟩
          rw [if_neg (by decide), if_neg hup]
          rfl
  · cases hr

/-- A key whose handler faults. -/
theorem keyboardHandler_fault (h : s.CursorsOk) (hr : s.keyboardHandler c st = .fault s') :
    ∃ con kbd, Draws 0xB8 s.beginKey.con con ∧
      (kbd = s.kbd ∨ c = 0x48 ∧ kbd = s.kbd.recallLine) ∧
      s' = { s.beginKey with con := con, kbd := kbd } := by
  have hb := h.beginKey.con
  unfold Kernel.keyboardHandler at hr
  split at hr
  · cases hr
  dsimp only at hr
  split at hr
  · cases hr
  · rename_i u hu
    cases hr
    rw [← beginKey_videoFrame (s := s)]
    split at hu
    · rename_i hup
      obtain ⟨con, kbd, hd, hk, hst, -⟩ := upKey_draws hb st
      rw [hu] at hst
      exact ⟨con, kbd, hd, hk.imp_right fun hk => ⟨hup, hk⟩, hst⟩
    · by_cases hs : isSwitch s.flags c
      · rw [editKey_switch (s := s.beginKey) hs] at hu
        cases hu
      · rcases editKey_draws (s := s.beginKey) hb hs with hf | ⟨con, hd, he⟩
        · rw [hf] at hu
          cases hu
          exact ⟨_, _, .refl hb, .inl rfl, rfl⟩
        · rw [he] at hu
          cases hu

/-- **The cursors are on the screen after every event.** -/
theorem cursorsOk_step {e : Event} (h : s.CursorsOk) (hs : s.step e = some s') : s'.CursorsOk := by
  have hio : s.io.CursorsOk := ⟨h.con, h.saved⟩
  suffices hi : s'.io.CursorsOk from ⟨hi.con, hi.saved⟩
  cases ioStep hs with
  | same _ hi => exact hi ▸ hio
  | prints text _ hi => exact hi ▸ hio.print text
  | tick _ hi => exact hi ▸ hio.leaveTerminal.enterTerminal
  | tickLast _ hi =>
    have h' := hio.leaveTerminal.switchTerminal 0
    exact hi ▸ Kernel.CursorsOk.enterTerminal ⟨h'.con, h'.saved⟩
  | tickFail _ hi => exact hi ▸ hio.leaveTerminal.prepareShell.enterTerminal
  | tickLaunch _ hi => exact hi ▸ hio.leaveTerminal.prepareShell
  | key hi =>
    rcases keyboardHandler_ret hio hi with ⟨f, -, hk⟩ | ⟨-, -, hk⟩ | ⟨-, -, con, hd, hk⟩ <;> rw [hk]
    · exact ⟨hio.con, hio.saved⟩
    · exact (hio.beginKey.switchTerminal _).endKey
    · exact (hio.beginKey.edited hd.inRange _).endKey
  | keyFault text hi hp =>
    obtain ⟨con, kbd, hd, -, rfl⟩ := keyboardHandler_fault hio hi
    have hu : { s.io.beginKey with con := con, kbd := kbd }.CursorsOk :=
      ⟨hd.inRange, hio.beginKey.saved⟩
    exact hp ▸ hu.print text
  | read hi =>
    obtain ⟨-, _, a, -, -, -, -, hk⟩ := terminalRead_eq hi
    have hu : { s.io with
        kbd := { s.io.kbd with bufKb := Buf.zero }, storeargs := a.storeargs }.CursorsOk :=
      ⟨hio.con, hio.saved⟩
    exact hk ▸ hu.setEnterFlag _ 1
  | vidmap vram _ hi => exact hi ▸ ⟨⟨hio.con.x, hio.con.y⟩, hio.saved⟩
  | vidmapFault vram text _ hi =>
    have hu : (s.io.vidMappedIo vram).CursorsOk := ⟨⟨hio.con.x, hio.con.y⟩, hio.saved⟩
    exact hi ▸ hu.print text

theorem cursorsOk_boot (b : BootIn) : (boot b).CursorsOk := by
  have hc : (Console.clear ⟨b.vram, 0, 0, 0⟩ 0xB8).InRange := Console.clear_draws.inRange
  have hm : Console.InRange (Console.putcs _ 0xB8 b.messages) :=
    (Console.putcs_draws hc b.messages).inRange
  refine ⟨⟨hm.x, hm.y⟩, fun t => ?_⟩
  simp only [boot, Kernel.initPIT, Kernel.initTerminals]
  split <;> exact ⟨Nat.zero_lt_succ 79, Nat.zero_lt_succ 24⟩

end Cursors

end Mp3
