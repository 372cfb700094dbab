import Mp3Os.KeyCalls

/-!
# The hardware cursor

`putc`, `backspace`, `clear_kb`, `clear` and `set_cursor` send the position of the static
variables to the VGA registers, `set_screenxy` does not. The position sent last should be that of
the visible terminal (`CursorShown`).

A key works on the cursor of the visible terminal, a tick moves no cursor, and a switch sends the
one of its destination. What breaks the rule is output of a process whose terminal is scheduled
but not visible: it is drawn in the background, and the hardware cursor follows it.
-/

namespace Mp3

/-- The registers have the position of the static variables. -/
def Console.Synced (c : Console) : Prop := c.cursor = c.pos

namespace Kernel

variable (s : Kernel)

/-- The registers have the position of the visible terminal. -/
def CursorShown : Prop := s.con.cursor = cellOf (s.cursorOf s.visible)

instance : Decidable s.CursorShown := inferInstanceAs (Decidable (_ = _))

/-- The scheduled terminal is the visible one. -/
def OnScreen : Prop := s.curTerminal = s.visible

instance : Decidable s.OnScreen := inferInstanceAs (Decidable (_ = _))

end Kernel

/-- What the event prints is printed on the screen that is visible. Output comes from writes to
the terminal, from exceptions, and from a base shell that halts and is restarted. -/
def PrintsOnScreen (s : Kernel) : Event → Prop
  | .write fd buf _ n => (s.writeTarget fd buf).isTerminal → 0 < n → s.OnScreen
  | .halt .. => (s.pcbs s.curr).parentPid = -1 → s.OnScreen
  | .exception v _ => v < 20 ∨ (s.pcbs s.curr).parentPid = -1 → s.OnScreen
  | .keyFault .. | .vidmapFault .. => s.OnScreen
  | _ => True

instance (s : Kernel) : ∀ e, Decidable (PrintsOnScreen s e)
  | .write .. => inferInstanceAs (Decidable (_ → _ → _))
  | .halt .. => inferInstanceAs (Decidable (_ → _))
  | .exception .. => inferInstanceAs (Decidable (_ ∨ _ → _))
  | .keyFault .. | .vidmapFault .. => inferInstanceAs (Decidable (Kernel.OnScreen _))
  | .tick .. | .tickLaunch .. | .key .. | .execUser .. | .execFail .. | .openFd .. | .closeFd ..
  | .read .. | .getargs .. | .vidmap .. => isTrue trivial

/-! ## Calls and the registers -/

section Calls

variable {frame : Nat} {c c' : Console} {call : DrawCall}

/-- `update_cursor` sends the position. -/
theorem synced_updateCursor (h : c.updateCursor.InRange) : c.updateCursor.Synced := by
  have hx : c.screenX < 80 := h.x
  have hy : c.screenY < 25 := h.y
  show (c.screenY * 80 + c.screenX) % 65536 = 80 * c.screenY + c.screenX
  omega

/-- Every call sends the position. -/
theorem run_synced (h : c.InRange) (hr : call.run frame c = some c') : c'.Synced := by
  have hin := (run_draws h hr).inRange
  have hsent : ∃ u : Console, c' = u.updateCursor := by
    cases call with
    | putc b =>
      cases hr
      unfold Console.putc
      split
      · exact ⟨_, rfl⟩
      · split
        · exact ⟨_, rfl⟩
        · exact ⟨_, rfl⟩
    | backspace =>
      simp only [DrawCall.run, Console.backspace] at hr
      split at hr
      · cases hr
      · split at hr
        · cases hr
          exact ⟨_, rfl⟩
        · cases hr
          exact ⟨_, rfl⟩
    | clearKb =>
      cases hr
      exact ⟨_, rfl⟩
    | clear =>
      cases hr
      exact ⟨_, rfl⟩
  obtain ⟨u, rfl⟩ := hsent
  exact synced_updateCursor hin

/-- So the registers follow any calls. -/
theorem drawn_synced (frame : Nat) (h : c.InRange) (hs : c.Synced) (calls : List DrawCall) :
    (drawn frame c calls).Synced ∧ (drawn frame c calls).InRange := by
  induction calls generalizing c with
  | nil => exact ⟨hs, h⟩
  | cons call calls ih =>
    rw [drawn]
    split
    · exact ⟨hs, h⟩
    · rename_i u hu
      exact ih (run_draws h hu).inRange (run_synced h hu)

theorem putcs_synced (h : c.InRange) (hs : c.Synced) (text : List UInt8) :
    (c.putcs frame text).Synced := by
  have hd := (drawn_synced frame h hs (text.map .putc)).1
  rwa [drawn_of_draws (draws_putcs text)] at hd

end Calls

/-! ## Output and keys -/

section Keys

variable {s s' : Kernel}

/-- With the scheduled terminal visible, the registers follow the static variables. -/
theorem cursorShown_iff_synced (h : s.OnScreen) : s.CursorShown ↔ s.con.Synced := by
  have hcur : s.cursorOf s.visible = s.cursorAt := if_pos h.symm
  rw [Kernel.CursorShown, hcur]
  exact Iff.rfl

/-- Output on the visible screen. -/
theorem cursorShown_print (hc : s.con.InRange) (hv : s.OnScreen) (h : s.CursorShown)
    (text : List UInt8) : (s.print text).CursorShown := by
  have hv' : (s.print text).OnScreen := hv
  rw [cursorShown_iff_synced hv']
  exact putcs_synced hc ((cursorShown_iff_synced hv).mp h) text

/-- Between `beginKey` and `endKey` the static variables are those of the visible terminal. -/
theorem synced_beginKey (hc : s.CursorsOk) (h : s.CursorShown) : s.beginKey.con.Synced := by
  have hcur := cursorAt_beginKey hc.con
  have hpos : s.beginKey.con.pos = cellOf s.beginKey.cursorAt := rfl
  rw [Console.Synced, hpos, hcur]
  exact h

/-- At the end of a key the visible terminal has the cursor of the static variables. -/
theorem cursorShown_endKey (hin : s.con.InRange) (h : s.con.Synced) : s.endKey.CursorShown := by
  have hcur : s.endKey.cursorOf s.visible = s.cursorAt :=
    (cursorOf_endKey hin s.visible).trans (if_pos rfl)
  rw [Kernel.CursorShown, show s.endKey.visible = s.visible from rfl, hcur]
  exact h

/-- What `switch_terminal` restores it also sends. -/
theorem synced_restoreTerminal {d : Int} (h : (s.restoreTerminal d).con.InRange) :
    (s.restoreTerminal d).con.Synced := by
  have hx : (s.terminals d).screenX < 80 := h.x
  have hy : (s.terminals d).screenY < 25 := h.y
  have hpos : ((s.terminals d).screenY * 80 + (s.terminals d).screenX) % 65536 =
      80 * (s.terminals d).screenY + (s.terminals d).screenX := by omega
  exact hpos

/-- A switch from a key sends the position of its destination. -/
theorem cursorShown_switchKey (hc : s.CursorsOk) (h : s.CursorShown) {d : Int} (hd : d ≤ 3) :
    (s.beginKey.switchTerminal d).endKey.CursorShown := by
  refine cursorShown_endKey (hc.beginKey.switchTerminal d).con ?_
  by_cases hv : d = s.visible
  · rw [hv, show s.visible = s.beginKey.visible from rfl, Kernel.switchTerminal_visible]
    exact synced_beginKey hc h
  · have hin := (hc.beginKey.switchTerminal d).con
    rw [Kernel.switchTerminal_of_ne (s := s.beginKey) hv hd] at hin ⊢
    exact synced_restoreTerminal hin

/-- The state of a key that does not switch, between `beginKey` and `endKey`. -/
theorem key_synced (hc : s.CursorsOk) (h : s.CursorShown) {c : Nat} {st : Stack} {u : Kernel}
    (hm : modifierKey s.flags c = none) (hs : ¬ isSwitch s.flags c)
    (hu : (if c = 0x48 then s.beginKey.upKey st else s.beginKey.editKey c).state = u) :
    u.con.Synced ∧ u.con.InRange := by
  have hdrawn := key_drawn (s := s.beginKey) hm hs st
  rw [hu] at hdrawn
  rw [hdrawn]
  exact drawn_synced _ hc.beginKey.con (synced_beginKey hc h) _

theorem cursorShown_key (hc : s.CursorsOk) (h : s.CursorShown) {c : Nat} {st : Stack}
    (hr : s.keyboardHandler c st = .ret s') : s'.CursorShown := by
  unfold Kernel.keyboardHandler at hr
  split at hr
  · cases hr
    exact h
  · rename_i hm
    dsimp only at hr
    split at hr
    · rename_i u hu
      cases hr
      by_cases hs : isSwitch s.flags c
      · have hcode : c = 0x3B ∨ c = 0x3C ∨ c = 0x3D := hs.1
        rw [if_neg (by omega), editKey_switch (s := s.beginKey) hs] at hu
        cases hu
        exact cursorShown_switchKey hc h (by omega)
      · have hsync := key_synced hc h hm hs (congrArg Outcome.state hu)
        exact cursorShown_endKey hsync.2 hsync.1
    · cases hr

theorem keyFault_synced (hc : s.CursorsOk) (h : s.CursorShown) {c : Nat} {st : Stack}
    (hr : s.keyboardHandler c st = .fault s') : s'.con.Synced ∧ s'.con.InRange := by
  unfold Kernel.keyboardHandler at hr
  split at hr
  · cases hr
  · rename_i hm
    dsimp only at hr
    split at hr
    · cases hr
    · rename_i u hu
      cases hr
      by_cases hs : isSwitch s.flags c
      · have hcode : c = 0x3B ∨ c = 0x3C ∨ c = 0x3D := hs.1
        rw [if_neg (by omega), editKey_switch (s := s.beginKey) hs] at hu
        cases hu
      · exact key_synced hc h hm hs (congrArg Outcome.state hu)

end Keys

/-! ## Ticks -/

/-- The registers have the position that `terminal_t` has for the visible terminal. -/
def Kernel.Sent (s : Kernel) : Prop := s.con.cursor = cellOf (s.savedAt s.visible)

/-- In the boot phase the terminals are scheduled in their order. -/
def Kernel.Scheduled (s : Kernel) : Prop :=
  s.pitCount ≤ 3 → s.curTerminal = (s.pitCount + 2) % 3

section Ticks

variable {s s' : Kernel}

theorem curTerminal_switchTerminal (d : Int) : (s.switchTerminal d).curTerminal = s.curTerminal :=
  congrArg Procs.cur (procs_switchTerminal (s := s) d)

theorem visible_switchTerminal {d : Int} (hd : d ≤ 3) : (s.switchTerminal d).visible = d := by
  by_cases hv : d = s.visible
  · rw [hv, Kernel.switchTerminal_visible]
  · rw [Kernel.switchTerminal_of_ne hv hd]
    rfl

theorem savedAt_leaveTerminal (h : s.con.InRange) (t : Int) :
    s.leaveTerminal.savedAt t = s.cursorOf t :=
  savedAt_saveScreen_cur (s := s.countInterrupt) ⟨h.x, h.y⟩ t

theorem sent_leaveTerminal (hc : s.con.InRange) (h : s.CursorShown) : s.leaveTerminal.Sent := by
  have hs := savedAt_leaveTerminal hc s.visible
  rw [Kernel.Sent, show s.leaveTerminal.visible = s.visible from rfl, hs]
  exact h

/-- The end of a tick loads the cursor of the scheduled terminal and sends nothing. -/
theorem cursorShown_enterTerminal (h : s.Sent) : s.enterTerminal.CursorShown := by
  have hcur : s.enterTerminal.cursorOf s.visible = s.savedAt s.visible :=
    cursorOf_loadScreen_cur (s := s.mapWindow) s.visible
  rw [Kernel.CursorShown, show s.enterTerminal.visible = s.visible from rfl, hcur]
  exact h

theorem sent_switchTerminal (hc : s.CursorsOk) (h : s.Sent) {d : Int} (hd : d ≤ 3) :
    (s.switchTerminal d).Sent := by
  have hin := (hc.switchTerminal d).con
  by_cases hv : d = s.visible
  · rw [hv, Kernel.switchTerminal_visible]
    exact h
  · rw [Kernel.switchTerminal_of_ne hv hd] at hin ⊢
    exact synced_restoreTerminal hin

theorem onScreen_freshScreen (h : s.OnScreen) : s.freshScreen.OnScreen := h

/-- The screen of a base shell is cleared while it is visible and scheduled. -/
theorem onScreen_prepareShell (h : s.Scheduled) (hp : s.pitCount < 3) :
    s.leaveTerminal.prepareShell.OnScreen := by
  have hcount : s.leaveTerminal.pitCount = s.pitCount := rfl
  have hnext : s.leaveTerminal.curTerminal = (s.curTerminal + 1) % 3 := rfl
  have hsched := h (Nat.le_of_lt hp)
  rw [Kernel.prepareShell, hcount]
  apply onScreen_freshScreen
  rw [Kernel.OnScreen, curTerminal_switchTerminal, visible_switchTerminal (by omega), hnext, hsched]
  omega

theorem synced_prepareShell : s.prepareShell.con.Synced := rfl

theorem sent_prepareShell (h : s.Scheduled) (hp : s.pitCount < 3) :
    s.leaveTerminal.prepareShell.Sent := by
  have hon := onScreen_prepareShell h hp
  have hsaved : s.leaveTerminal.prepareShell.savedAt s.leaveTerminal.prepareShell.curTerminal =
      (0, 0) := by
    simp [Kernel.savedAt, Kernel.prepareShell, Kernel.freshScreen, Kernel.saveScreen,
      Kernel.modTerm, Kernel.clearScreen]
    exact ⟨rfl, rfl⟩
  rw [Kernel.Sent, ← hon, hsaved]
  exact synced_prepareShell (s := s.leaveTerminal)

theorem cursorShown_prepareShell (h : s.Scheduled) (hp : s.pitCount < 3) :
    s.leaveTerminal.prepareShell.CursorShown := by
  rw [cursorShown_iff_synced (onScreen_prepareShell h hp)]
  exact synced_prepareShell

theorem scheduled_enterTerminal (h : s.Scheduled) : s.enterTerminal.Scheduled := h

theorem curTerminal_freshScreen : s.freshScreen.curTerminal = s.curTerminal := rfl

theorem scheduled_prepareShell (h : s.Scheduled) (hp : s.pitCount < 3) :
    s.leaveTerminal.prepareShell.Scheduled := by
  intro _
  have hcount := pitCount_prepareShell (s := s.leaveTerminal)
  have hnext : s.leaveTerminal.curTerminal = (s.curTerminal + 1) % 3 := rfl
  have hsched := h (Nat.le_of_lt hp)
  rw [hcount, Kernel.prepareShell, curTerminal_freshScreen, curTerminal_switchTerminal, hnext,
    hsched, show s.leaveTerminal.pitCount = s.pitCount from rfl]
  omega

end Ticks

/-! ## Runs -/

/-- The invariant for the registers. -/
structure Kernel.Follows (s : Kernel) : Prop where
  cursors : s.CursorsOk
  scheduled : s.Scheduled
  shown : 0 < s.pitCount → s.CursorShown

/-- The ticks. -/
def Event.Ticks : Event → Prop
  | .tick .. | .tickLaunch .. => True
  | _ => False

section Run

variable {s s' : Kernel} {e : Event}

/-- Only ticks schedule. -/
theorem schedule_of_not_ticks (hc : s.CursorsOk) (he : ¬ e.Ticks) (hs : s.step e = some s') :
    s'.pitCount = s.pitCount ∧ s'.curTerminal = s.curTerminal := by
  have hcur : s.io.CursorsOk := ⟨hc.con, hc.saved⟩
  suffices hi : s'.io.pitCount = s.io.pitCount ∧ s'.io.curTerminal = s.io.curTerminal from hi
  cases ioStep hs with
  | same _ hi => rw [hi]; exact ⟨rfl, rfl⟩
  | prints text _ hi => rw [hi]; exact ⟨rfl, rfl⟩
  | tick _ _ => exact absurd trivial he
  | tickLast _ _ => exact absurd trivial he
  | tickFail _ _ => exact absurd trivial he
  | tickLaunch _ _ => exact absurd trivial he
  | key hi =>
    rcases keyboardHandler_ret hcur hi with ⟨f, -, hk⟩ | ⟨-, -, hk⟩ | ⟨-, -, con, -, hk⟩
    · rw [hk]
      exact ⟨rfl, rfl⟩
    · rw [hk]
      have hp := procs_switchTerminal (s := s.io.beginKey)
      exact ⟨congrArg Procs.pitCount (hp _), congrArg Procs.cur (hp _)⟩
    · rw [hk]
      exact ⟨rfl, rfl⟩
  | keyFault text hi hp =>
    obtain ⟨con, kbd, -, -, rfl⟩ := keyboardHandler_fault hcur hi
    rw [hp]
    exact ⟨rfl, rfl⟩
  | read hi =>
    obtain ⟨-, _, a, -, -, -, -, hk⟩ := terminalRead_eq hi
    rw [hk]
    exact ⟨rfl, rfl⟩
  | vidmap vram _ hi => rw [hi]; exact ⟨rfl, rfl⟩
  | vidmapFault vram text _ hi => rw [hi]; exact ⟨rfl, rfl⟩

theorem scheduled_step (hc : s.CursorsOk) (h : s.Scheduled) (hs : s.step e = some s') :
    s'.Scheduled := by
  by_cases he : e.Ticks
  · have hio : s.io.Scheduled := h
    suffices hi : s'.io.Scheduled from hi
    cases e with
    | tick esp ebp x =>
      rcases tick_cases hs with ⟨hp, hi⟩ | ⟨-, hi⟩ | ⟨hp, hi⟩
      · rw [hi]
        exact scheduled_enterTerminal (scheduled_prepareShell hio hp)
      · rw [hi]
        intro hp
        have hp' : 4 ≤ 3 := hp
        omega
      · rw [hi]
        exact fun hp' => absurd hp (Nat.not_lt_of_le hp')
    | tickLaunch esp ebp x =>
      obtain ⟨hp, hi⟩ := tickLaunch_io hs
      rw [hi]
      exact scheduled_prepareShell hio hp
    | _ => exact he.elim
  · obtain ⟨hp, hcur⟩ := schedule_of_not_ticks hc he hs
    rw [Kernel.Scheduled, hp, hcur]
    exact h

theorem cursorShown_ticks (h : s.Follows) (he : e.Ticks) (hs : s.step e = some s') :
    s'.CursorShown := by
  have hc : s.io.CursorsOk := ⟨h.cursors.con, h.cursors.saved⟩
  have hsched : s.io.Scheduled := h.scheduled
  have hshown : 0 < s.pitCount → s.io.CursorShown := h.shown
  suffices hi : s'.io.CursorShown from hi
  cases e with
  | tick esp ebp x =>
    rcases tick_cases hs with ⟨hp, hi⟩ | ⟨hp, hi⟩ | ⟨hp, hi⟩
    · rw [hi]
      exact cursorShown_enterTerminal (sent_prepareShell hsched hp)
    · have hsent := sent_leaveTerminal hc.con (hshown (by omega))
      rw [hi]
      exact cursorShown_enterTerminal (sent_switchTerminal hc.leaveTerminal hsent (by decide))
    · rw [hi]
      exact cursorShown_enterTerminal (sent_leaveTerminal hc.con (hshown (by omega)))
  | tickLaunch esp ebp x =>
    obtain ⟨hp, hi⟩ := tickLaunch_io hs
    rw [hi]
    exact cursorShown_prepareShell hsched hp
  | _ => exact he.elim

/-- A text, if there is any, is printed on the visible screen. -/
theorem cursorShown_output {text : List UInt8} (hi : s'.io = s.print text) (hc : s.con.InRange)
    (h : s.CursorShown) (ht : text ≠ [] → s.OnScreen) : s'.CursorShown := by
  suffices hs' : s'.io.CursorShown from hs'
  rw [hi]
  by_cases hne : text = []
  · rw [hne]
    exact h
  · exact cursorShown_print hc (ht hne) h text

theorem cursorShown_same (hi : s'.io = s) (h : s.CursorShown) : s'.CursorShown := by
  suffices hs' : s'.io.CursorShown from hs'
  rw [hi]
  exact h

/-- A read returns on the visible screen only. -/
theorem cursorShown_read (h : s.CursorShown) {n ret : Int} {bytes : List UInt8}
    (hr : s.terminalRead n = some (ret, bytes, s')) : s'.CursorShown := by
  obtain ⟨hw, _, a, -, -, -, -, rfl⟩ := terminalRead_eq hr
  have hv : s.OnScreen := by
    by_contra hne
    exact hw (.inr hne)
  have hv' : (s.finishRead a.storeargs).OnScreen := hv
  rw [cursorShown_iff_synced hv']
  exact (cursorShown_iff_synced hv).mp h

theorem cursorShown_keyFault (hc : s.CursorsOk) (h : s.CursorShown) (hv : s.OnScreen) {c : UInt8}
    {st : Stack} {xs : List ExecIn} (hs : s.step (.keyFault c st xs) = some s') :
    s'.CursorShown := by
  simp only [Kernel.step] at hs
  split at hs
  · cases hs
  · rename_i u hr
    obtain ⟨text, ht⟩ := exception_io hs
    have hu : u.OnScreen := by
      obtain ⟨con, kbd, -, -, rfl⟩ := keyboardHandler_fault hc hr
      exact hv
    obtain ⟨hsync, hin⟩ := keyFault_synced hc h hr
    exact cursorShown_output ht hin ((cursorShown_iff_synced hu).mpr hsync) fun _ => hu

theorem cursorShown_write (hc : s.con.InRange) (h : s.CursorShown) {fd : Int} {buf : Nat}
    {mem : Nat → UInt8} {n : Int} {r : SysResult}
    (hg : (s.writeTarget fd buf).isTerminal → 0 < n → s.OnScreen)
    (hr : s.sysWrite fd buf mem n = some r) : r.state.CursorShown := by
  rcases sysWrite_io hr with ⟨-, hi⟩ | ⟨ht, hi⟩
  · exact cursorShown_same hi h
  · refine cursorShown_output hi hc h fun hne => hg ht ?_
    by_contra hn
    have hz : n.toNat = 0 := by omega
    rw [hz] at hne
    exact hne rfl

theorem cursorShown_halt (hc : s.con.InRange) (h : s.CursorShown) {st : UInt8} {xs : List ExecIn}
    {r : HaltResult} (hg : (s.pcbs s.curr).parentPid = -1 → s.OnScreen)
    (hr : s.halt st xs = some r) : r.state.CursorShown := by
  by_cases hp : (s.pcbs s.curr).parentPid = -1
  · obtain ⟨text, hi⟩ := halt_io hr
    exact cursorShown_output hi hc h fun _ => hg hp
  · exact cursorShown_same (halt_child_io hp hr) h

theorem cursorShown_exception (hc : s.con.InRange) (h : s.CursorShown) {v : Nat}
    {xs : List ExecIn} (hg : v < 20 ∨ (s.pcbs s.curr).parentPid = -1 → s.OnScreen)
    (hr : s.exception v xs = some s') : s'.CursorShown := by
  by_cases hp : (s.pcbs s.curr).parentPid = -1
  · obtain ⟨text, hi⟩ := exception_io hr
    exact cursorShown_output hi hc h fun _ => hg (.inr hp)
  · refine cursorShown_output (exception_child_io hp hr) hc h fun hne => hg (.inl ?_)
    by_contra hv
    apply hne
    unfold exceptionText
    rw [if_neg (by omega), if_neg hv]

/-- The events that are not ticks. -/
theorem cursorShown_step (hc : s.CursorsOk) (h : s.CursorShown) (hg : PrintsOnScreen s e)
    (he : ¬ e.Ticks) (hs : s.step e = some s') : s'.CursorShown := by
  have hin := hc.con
  cases e with
  | tick esp ebp x => exact absurd trivial he
  | tickLaunch esp ebp x => exact absurd trivial he
  | key c st =>
    simp only [Kernel.step] at hs
    split at hs
    · rename_i hr
      cases hs
      exact cursorShown_key hc h hr
    · cases hs
  | keyFault c st xs => exact cursorShown_keyFault hc h hg hs
  | execUser fname x => exact cursorShown_same (silent_io hs trivial) h
  | execFail fname x => exact cursorShown_same (silent_io hs trivial) h
  | halt st xs =>
    obtain ⟨-, hs⟩ := syscall_eq hs
    obtain ⟨r, hr, rfl⟩ := Option.map_eq_some_iff.mp hs
    exact cursorShown_halt hin h hg hr
  | exception v xs => exact cursorShown_exception hin h hg hs
  | openFd f => exact cursorShown_same (silent_io hs trivial) h
  | closeFd fd => exact cursorShown_same (silent_io hs trivial) h
  | read fd buf stack mem n =>
    obtain ⟨-, hs⟩ := syscall_eq hs
    obtain ⟨r, hr, rfl⟩ := Option.map_eq_some_iff.mp hs
    rcases sysRead_io hr with ⟨-, hi⟩ | ⟨-, ret, bytes, hi⟩
    · exact cursorShown_same hi h
    · exact cursorShown_read h hi
  | write fd buf mem n =>
    obtain ⟨-, hs⟩ := syscall_eq hs
    obtain ⟨r, hr, rfl⟩ := Option.map_eq_some_iff.mp hs
    exact cursorShown_write hin h hg hr
  | getargs after mem n => exact cursorShown_same (silent_io hs trivial) h
  | vidmap a =>
    rcases vidmap_io hs with ⟨-, hi⟩ | ⟨-, vram, hi⟩
    · exact cursorShown_same hi h
    · exact cursorShown_same hi h
  | vidmapFault a xs =>
    obtain ⟨-, text, hi⟩ := vidmapFault_io hs
    exact cursorShown_output hi hin h fun _ => hg

theorem follows_step (h : s.Follows) (hg : PrintsOnScreen s e) (hs : s.step e = some s') :
    s'.Follows := by
  refine ⟨cursorsOk_step h.cursors hs, scheduled_step h.cursors h.scheduled hs, fun hp => ?_⟩
  by_cases he : e.Ticks
  · exact cursorShown_ticks h he hs
  · rw [(schedule_of_not_ticks h.cursors he hs).1] at hp
    exact cursorShown_step h.cursors (h.shown hp) hg he hs

theorem follows_boot (b : BootIn) : (boot b).Follows :=
  ⟨cursorsOk_boot b, fun _ => rfl, fun h => absurd h (Nat.not_lt_zero 0)⟩

/-- **From the first tick on the hardware cursor shows the visible terminal, in every run in which
nothing is printed in the background.** -/
theorem cursor_shown_along {b : BootIn} {es : List Event}
    (h : kernel.Along PrintsOnScreen (boot b) es) :
    kernel.Always (fun s => 0 < s.pitCount → s.CursorShown) (boot b) es :=
  Lts.always_of_inv (I := Kernel.Follows) (fun _ _ _ hi hg hs => follows_step hi hg hs)
    (fun _ hi => hi.shown) (follows_boot b) h

/-- A line is typed on terminal 0, then one on terminal 1, and the program of terminal 1
writes. -/
def writesVisible : List Event :=
  sampleLaunches ++ [.tick 0 0 sampleExec] ++ sampleKeys [0x26, 0x38, 0x3C, 0x1E] ++
    [.tick 0 0 sampleExec, .write 1 0x8000000 (memory [(0, lit ['h', 'i'])]) 2,
      .tick 0 0 sampleExec]

theorem cursor_shown_sample : kernel.Along PrintsOnScreen (boot sampleBoot) writesVisible ∧
    (kernel.run (boot sampleBoot) writesVisible).map (fun s => (s.pitCount, s.con.cursor)) =
      some (4, 3) ∧
    kernel.Always (fun s => 0 < s.pitCount → s.CursorShown) (boot sampleBoot) writesVisible := by
  have hg : kernel.Along PrintsOnScreen (boot sampleBoot) writesVisible := by decide +kernel
  exact ⟨hg, by decide +kernel, cursor_shown_along hg⟩

/-- Terminal 1 is visible with its cursor in column 1, and the program of terminal 0 writes in the
background: the hardware cursor goes to column 3. -/
theorem background_write_moves_cursor :
    ¬ kernel.Always (fun s => 3 < s.pitCount → s.CursorShown) (boot sampleBoot) typeAndWrite := by
  have hv : (kernel.run (boot sampleBoot) typeAndWrite).map (fun s =>
      (s.pitCount, s.con.cursor, s.cursorOf s.visible)) = some (4, 3, (1, 0)) := by decide +kernel
  obtain ⟨s, hs, hv⟩ := Option.map_eq_some_iff.mp hv
  simp only [Prod.mk.injEq] at hv
  obtain ⟨hp, hsent, hcur⟩ := hv
  intro h
  have hshown : s.con.cursor = cellOf (s.cursorOf s.visible) := h.last hs (by omega)
  rw [hsent, hcur] at hshown
  exact absurd hshown (by decide)

end Run

end Mp3
