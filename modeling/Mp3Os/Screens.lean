import Mp3Os.Keys
import Mp3Os.Video

/-!
# The screens of the terminals

The screen of a terminal is on the VGA page while the terminal is visible and in its buffer
otherwise; its cursor is in the static variables of `lib.c` while the terminal is scheduled and
in `terminal_t` otherwise (`Kernel.view`). The page table entry of the window, the two memory
copies of `switch_terminal` and the cursors saved by two handlers keep these apart:

* a `terminal_write` prints on the screen of the scheduled terminal, as it would if there were
  no other;
* a key changes the screen of the visible terminal only;
* a tick or a switch changes no screen.

`screens_isolated` has this for every run after the boot phase.
-/

namespace Mp3

open Console (Draws)

namespace Kernel

variable (s : Kernel)

/-- The page with the characters of a terminal. -/
def pageOf (t : Int) : Nat :=
  if t = s.visible then 0xB8 else (s.terminals t).videoBuffer / 4096

/-- The cursor that `terminal_t` has. -/
def savedAt (t : Int) : Nat × Nat := ((s.terminals t).screenX, (s.terminals t).screenY)

/-- The cursor of the static variables. -/
def cursorAt : Nat × Nat := (s.con.screenX, s.con.screenY)

/-- The cursor of a terminal. -/
def cursorOf (t : Int) : Nat × Nat := if t = s.curTerminal then s.cursorAt else s.savedAt t

/-- The characters of a terminal. -/
def cellsOf (t : Int) (i : Fin (80 * 25)) : UInt8 := s.con.vram (s.pageOf t * 4096 + 2 * i)

/-- The screen of a terminal: its characters and its cursor. -/
def view (t : Int) : Screen UInt8 80 25 := ⟨s.cellsOf t, (s.cursorOf t).1, (s.cursorOf t).2⟩

end Kernel

/-! ## Cursors -/

section Cursors

variable {s : Kernel}

theorem cursorOf_of_ne {t : Int} (ht : t ≠ s.curTerminal) : s.cursorOf t = s.savedAt t := if_neg ht

theorem savedAt_saveScreen (h : s.con.InRange) (t u : Int) :
    (s.saveScreen t).savedAt u = if u = t then s.cursorAt else s.savedAt u := by
  have hx := h.x
  have hy := h.y
  by_cases hu : u = t
  · subst hu
    simp only [Kernel.savedAt, Kernel.saveScreen, Kernel.modTerm, Function.update_self, ↓reduceIte,
      Kernel.cursorAt, Prod.mk.injEq]
    omega
  · simp [Kernel.savedAt, Kernel.saveScreen, Kernel.modTerm, hu]

/-- After the scheduled terminal is saved, every cursor is in `terminal_t`. -/
theorem savedAt_saveScreen_cur (h : s.con.InRange) (t : Int) :
    (s.saveScreen s.curTerminal).savedAt t = s.cursorOf t := savedAt_saveScreen h ..

/-- After the scheduled terminal is loaded, the cursors are those of `terminal_t`. -/
theorem cursorOf_loadScreen_cur (t : Int) :
    (s.loadScreen s.curTerminal).cursorOf t = s.savedAt t := by
  by_cases ht : t = s.curTerminal
  · subst ht
    exact if_pos rfl
  · exact if_neg ht

theorem savedAt_beginKey (h : s.con.InRange) (t : Int) : s.beginKey.savedAt t = s.cursorOf t :=
  savedAt_saveScreen_cur h t

theorem cursorAt_beginKey (h : s.con.InRange) : s.beginKey.cursorAt = s.cursorOf s.visible :=
  savedAt_saveScreen_cur h s.visible

theorem cursorOf_endKey (h : s.con.InRange) (t : Int) :
    s.endKey.cursorOf t = if t = s.visible then s.cursorAt else s.savedAt t := by
  exact (cursorOf_loadScreen_cur (s := s.mapWindow.saveScreen s.visible) t).trans
    (savedAt_saveScreen (s := s.mapWindow) h s.visible t)

theorem cursorOf_tick (h : s.con.InRange) (t : Int) :
    s.leaveTerminal.enterTerminal.cursorOf t = s.cursorOf t := by
  have hc : s.countInterrupt.con.InRange := ⟨h.x, h.y⟩
  exact (cursorOf_loadScreen_cur (s := s.leaveTerminal.mapWindow) t).trans
    (savedAt_saveScreen_cur (s := s.countInterrupt) hc t)

theorem savedAt_edited (con : Console) (k : KbState) (t : Int) :
    (s.edited con k).savedAt t = s.savedAt t := by
  by_cases ht : t = s.visible
  · subst ht
    simp [Kernel.savedAt, Kernel.edited, Kernel.setEnterFlag, Kernel.modTerm]
  · simp [Kernel.savedAt, Kernel.edited, Kernel.setEnterFlag, Kernel.modTerm, ht]

theorem savedAt_saveVisible (h : s.con.InRange) (t : Int) :
    s.saveVisible.savedAt t = if t = s.visible then s.cursorAt else s.savedAt t := by
  have hx := h.x
  have hy := h.y
  by_cases ht : t = s.visible
  · subst ht
    simp only [Kernel.savedAt, Kernel.saveVisible, Kernel.modTerm, Function.update_self, ↓reduceIte,
      Kernel.cursorAt, Prod.mk.injEq, Terminal.save]
    omega
  · simp [Kernel.savedAt, Kernel.saveVisible, Kernel.modTerm, ht]

/-- Between `beginKey` and `endKey` a saved visible terminal has its own cursor. -/
theorem savedAt_saveVisible_beginKey (h : s.CursorsOk) (t : Int) :
    s.beginKey.saveVisible.savedAt t = s.cursorOf t := by
  rw [savedAt_saveVisible h.beginKey.con, cursorAt_beginKey h.con, savedAt_beginKey h.con]
  split
  · rename_i ht
    rw [ht]
    rfl
  · rfl

/-- A switch between `beginKey` and `endKey` moves no cursor. -/
theorem cursorOf_switchKey (h : s.CursorsOk) {d : Int} (hd : d ≤ 3) (t : Int) :
    (s.beginKey.switchTerminal d).endKey.cursorOf t = s.cursorOf t := by
  rw [cursorOf_endKey (h.beginKey.switchTerminal d).con]
  by_cases hv : d = s.visible
  · rw [hv, show s.visible = s.beginKey.visible from rfl, Kernel.switchTerminal_visible,
      cursorAt_beginKey h.con, savedAt_beginKey h.con]
    split
    · rename_i ht
      rw [ht]
      rfl
    · rfl
  · rw [Kernel.switchTerminal_of_ne (s := s.beginKey) hv hd]
    show (if t = d then s.beginKey.saveVisible.savedAt d else s.beginKey.saveVisible.savedAt t) = _
    rw [savedAt_saveVisible_beginKey h, savedAt_saveVisible_beginKey h]
    split
    · rename_i ht
      rw [ht]
    · rfl

end Cursors

/-! ## Characters -/

section Cells

variable {s : Kernel}

theorem buffer_page (h : s.vid.Wf) (t : Fin 3) :
    (s.terminals t).videoBuffer / 4096 = 0xB9 + t := by
  have := h.buffer t
  simp only [Kernel.vid] at this
  omega

theorem pageOf_eq (h : s.vid.Wf) (t : Fin 3) :
    s.pageOf t = if (t : Int) = s.visible then 0xB8 else 0xB9 + t.1 := by
  rw [Kernel.pageOf, buffer_page h]

/-- The terminals have different pages. -/
theorem pageOf_ne (h : s.vid.Wf) {t u : Fin 3} (hne : t ≠ u) : s.pageOf t ≠ s.pageOf u := by
  have hne' : t.1 ≠ u.1 := fun he => hne (Fin.ext he)
  rw [pageOf_eq h, pageOf_eq h]
  split_ifs <;> omega

/-- The window shows the page of the scheduled terminal after it was mapped. -/
theorem mapWindow_videoFrame (h : s.vid.Wf) :
    s.mapWindow.paging.videoFrame = s.pageOf s.curTerminal := by
  obtain ⟨i, hi⟩ := h.cur
  have hi : s.curTerminal = (i : Int) := hi
  have hlt := i.2
  have hm := Paging.mapVideoPage_videoFrame s.paging
    (t := if s.curTerminal = s.visible then 0 else 1 + s.curTerminal)
    (by split_ifs <;> omega) (by split_ifs <;> omega)
  refine hm.trans ?_
  rw [hi, pageOf_eq h]
  split_ifs <;> omega

theorem pageOf_congr {s' : Kernel} (hb : s'.vid.buffer = s.vid.buffer) (hv : s'.visible = s.visible)
    (t : Int) : s'.pageOf t = s.pageOf t := by
  have ht : (s'.terminals t).videoBuffer = (s.terminals t).videoBuffer := congrFun hb t
  rw [Kernel.pageOf, Kernel.pageOf, hv, ht]

theorem pageOf_beginKey (t : Int) : s.beginKey.pageOf t = s.pageOf t :=
  pageOf_congr (congrArg Vid.buffer vid_beginKey) rfl t

theorem cellsOf_endKey (t : Int) : s.endKey.cellsOf t = s.cellsOf t := by
  funext i
  rw [Kernel.cellsOf, pageOf_congr (congrArg Vid.buffer vid_endKey) rfl]
  rfl

theorem cellsOf_tick (t : Int) : s.leaveTerminal.enterTerminal.cellsOf t = s.cellsOf t := by
  have hb : s.leaveTerminal.enterTerminal.vid.buffer = s.vid.buffer := by
    rw [vid_enterTerminal, vid_leaveTerminal]
    rfl
  funext i
  rw [Kernel.cellsOf, pageOf_congr hb rfl]
  exact Console.testInterrupts_cells ..

/-- What a key draws on the VGA page is not on the other pages. -/
theorem cellsOf_edited (h : s.vid.Wf) {con : Console} (hd : Draws 0xB8 s.con con) (k : KbState)
    {t : Fin 3} (ht : (t : Int) ≠ s.visible) : (s.edited con k).cellsOf t = s.cellsOf t := by
  have hb : (s.edited con k).vid.buffer = s.vid.buffer :=
    congrArg Vid.buffer (vid_setEnterFlag (s := { s with con := con, kbd := k.kbd }) ..)
  funext i
  have hi : i.1 < 2000 := i.2
  rw [Kernel.cellsOf, pageOf_congr hb rfl, Kernel.cellsOf]
  refine hd.off _ ?_
  rw [pageOf_eq h, if_neg ht]
  omega

/-- `switch_terminal` copies the characters to where they are looked for afterwards. -/
theorem cellsOf_switchTerminal (h : s.vid.Wf) (hf : s.paging.videoFrame = 0xB8) (d t : Fin 3) :
    (s.switchTerminal d).cellsOf t = s.cellsOf t := by
  by_cases hv : (d : Int) = s.visible
  · rw [hv, Kernel.switchTerminal_visible]
  obtain ⟨v, hvis⟩ := h.visible
  have hvis : s.visible = (v : Int) := hvis
  have hdv : d.1 ≠ v.1 := by omega
  have hbuf : ∀ u : Fin 3, (s.saveVisible.terminals u).videoBuffer / 4096 = 0xB9 + u.1 := by
    intro u
    have := congrFun (congrArg Vid.buffer (vid_saveVisible (s := s))) u
    rw [← buffer_page h u]
    exact congrArg (· / 4096) this
  have hpage : (s.saveVisible.restoreTerminal d).pageOf t =
      if (t : Int) = d then 0xB8 else 0xB9 + t.1 := by
    rw [← hbuf t]
    rfl
  have hvram : (s.saveVisible.restoreTerminal d).con.vram =
      ((s.con.copyPage (0xB9 + v.1) 0xB8).copyPage 0xB8 (0xB9 + d.1)).vram := by
    rw [← buffer_page h v, ← hbuf d, ← hf, ← hvis]
    rfl
  funext i
  have hi : 2 * i.1 < 4096 := by
    have : i.1 < 2000 := i.2
    omega
  rw [Kernel.switchTerminal_of_ne hv (by omega), Kernel.cellsOf, Kernel.cellsOf, hpage, hvram,
    pageOf_eq h, hvis]
  by_cases htd : t = d
  · -- the screen that appears
    subst htd
    rw [if_pos rfl, if_neg (by omega), Console.copyPage_on hi, Console.copyPage_off (by omega)]
  have htd' : t.1 ≠ d.1 := fun he => htd (Fin.ext he)
  rw [if_neg (by omega), Console.copyPage_off (by omega)]
  by_cases htv : t = v
  · -- the screen that disappears
    subst htv
    rw [if_pos rfl, Console.copyPage_on hi]
  · have htv' : t.1 ≠ v.1 := fun he => htv (Fin.ext he)
    rw [if_neg (by omega), Console.copyPage_off (by omega)]

end Cells

/-! ## Screens -/

section Views

variable {s s' : Kernel}

theorem view_congr {t : Int} (hcells : s'.cellsOf t = s.cellsOf t)
    (hcursor : s'.cursorOf t = s.cursorOf t) : s'.view t = s.view t := by
  rw [Kernel.view, Kernel.view, hcells, hcursor]

theorem view_tick (h : s.con.InRange) (t : Int) :
    s.leaveTerminal.enterTerminal.view t = s.view t :=
  view_congr (cellsOf_tick t) (cursorOf_tick h t)

/-- What is printed through the window appears on the screen of the scheduled terminal. -/
theorem view_print (h : s.vid.Wf) (hc : s.con.InRange)
    (hf : s.paging.videoFrame = s.pageOf s.curTerminal) (text : List UInt8) (t : Fin 3) :
    (s.print text).view t =
      if (t : Int) = s.curTerminal then (s.view t).prints 32 Console.isNewline text
      else s.view t := by
  split
  · rename_i ht
    have hview : ∀ u : Kernel, u.pageOf t = s.paging.videoFrame → (t : Int) = u.curTerminal →
        u.view t = u.con.screen s.paging.videoFrame := by
      intro u hp hu
      ext i
      · simp only [Kernel.view, Kernel.cellsOf, hp, Console.screen]
      · simp only [Kernel.view, Kernel.cursorOf, if_pos hu, Kernel.cursorAt, Console.screen]
      · simp only [Kernel.view, Kernel.cursorOf, if_pos hu, Kernel.cursorAt, Console.screen]
    rw [← ht] at hf
    rw [hview (s.print text) hf.symm ht, hview s hf.symm ht]
    exact Console.screen_putcs hc text
  · rename_i ht
    obtain ⟨i, hi⟩ := h.cur
    have hi : s.curTerminal = (i : Int) := hi
    have hne : t ≠ i := fun he => ht (by rw [he, hi])
    have hd : Draws s.paging.videoFrame s.con _ := Console.putcs_draws hc text
    refine view_congr (funext fun j => ?_) ?_
    · have hj : j.1 < 2000 := j.2
      have hp := pageOf_ne h hne
      refine hd.off _ ?_
      rw [hf, hi]
      show (s.pageOf t * 4096 + 2 * j.1) / 4096 ≠ _
      omega
    · exact (cursorOf_of_ne (s := s.print text) ht).trans (cursorOf_of_ne ht).symm

/-- A key changes at most the screen of the visible terminal, and a switch none. -/
theorem view_key (h : s.vid.Wf) (hc : s.CursorsOk) {c : Nat} {st : Stack}
    (hr : s.keyboardHandler c st = .ret s') (t : Fin 3)
    (ht : isSwitch s.flags c ∨ (t : Int) ≠ s.visible) : s'.view t = s.view t := by
  have hb : s.beginKey.vid.Wf := vid_beginKey (s := s) ▸ h
  have hcells : s.beginKey.cellsOf t = s.cellsOf t := by
    funext i
    rw [Kernel.cellsOf, pageOf_beginKey]
    rfl
  rcases keyboardHandler_ret hc hr with ⟨f, -, rfl⟩ | ⟨-, hs, rfl⟩ | ⟨-, hs, con, hd, rfl⟩
  · rfl
  · have hcode : c = 0x3B ∨ c = 0x3C ∨ c = 0x3D := hs.1
    obtain ⟨d, hd⟩ : ∃ d : Fin 3, (c : Int) - 0x3B = d := ⟨⟨c - 0x3B, by omega⟩, by simp only; omega⟩
    rw [hd]
    refine view_congr ?_ (cursorOf_switchKey hc (by omega) t)
    rw [cellsOf_endKey, cellsOf_switchTerminal hb beginKey_videoFrame, hcells]
  · have hv := ht.resolve_left hs
    refine view_congr ?_ ?_
    · rw [cellsOf_endKey, cellsOf_edited hb hd _ hv, hcells]
    · rw [cursorOf_endKey (hc.beginKey.edited hd.inRange _).con]
      refine (if_neg hv).trans ?_
      rw [savedAt_edited, savedAt_beginKey hc.con]

end Views

/-! ## Runs -/

/-- After the boot phase the window shows the page of the scheduled terminal. -/
def Kernel.Window (s : Kernel) : Prop :=
  3 < s.pitCount → s.paging.videoFrame = s.pageOf s.curTerminal

/-- The invariant for the screens. -/
structure Kernel.Placed (s : Kernel) : Prop where
  wf : s.vid.Wf
  cursors : s.CursorsOk
  window : s.Window

/-- The handler of the key does not fault. -/
def Event.Returns : Event → Prop
  | .keyFault .. => False
  | _ => True

/-- After the boot phase the handlers of keys return. -/
def KeysReturn (s : Kernel) (e : Event) : Prop := 3 < s.pitCount → e.Returns

/-- What an event after the boot phase may do to the screens. -/
def ScreensIsolated (s : Kernel) (e : Event) : Prop :=
  3 < s.pitCount → ∀ s', s.step e = some s' →
    match e with
    | .tick .. => ∀ t : Fin 3, s'.view t = s.view t
    | .key c _ => ∀ t : Fin 3, isSwitch s.flags c.toNat ∨ (t : Int) ≠ s.visible →
        s'.view t = s.view t
    | .write fd buf mem n => ∀ t : Fin 3, s'.view t =
        if (t : Int) = s.curTerminal ∧ (s.writeTarget fd buf).isTerminal then
          (s.view t).prints 32 Console.isNewline ((List.range n.toNat).map mem)
        else s.view t
    | _ => True

section Run

variable {s s' : Kernel} {e : Event}

theorem pitCount_prepareShell : s.prepareShell.pitCount = s.pitCount + 1 :=
  congrArg (· + 1) (congrArg Procs.pitCount (procs_switchTerminal (s := s) s.pitCount))

theorem window_endKey (h : s.endKey.vid.Wf) : s.endKey.Window := fun _ => by
  rw [vid_endKey] at h
  exact (mapWindow_videoFrame h).trans (pageOf_congr (congrArg Vid.buffer vid_endKey) rfl _).symm

theorem window_enterTerminal (h : s.enterTerminal.vid.Wf) : s.enterTerminal.Window := fun _ =>
  mapWindow_videoFrame (s := s) h

theorem placed_step (h : s.Placed) (hg : KeysReturn s e) (hs : s.step e = some s') : s'.Placed := by
  have hwf := vid_wf_step h.wf hs
  refine ⟨hwf, cursorsOk_step h.cursors hs, ?_⟩
  rw [← vid_io] at hwf
  have hcur : s.io.CursorsOk := ⟨h.cursors.con, h.cursors.saved⟩
  have hw : s.io.Window := h.window
  suffices hi : s'.io.Window from hi
  cases ioStep hs with
  | same _ hi => exact hi ▸ hw
  | prints text _ hi => exact hi ▸ hw
  | tick _ hi => rw [hi] at hwf ⊢; exact window_enterTerminal hwf
  | tickLast _ hi => rw [hi] at hwf ⊢; exact window_enterTerminal hwf
  | tickFail _ hi => rw [hi] at hwf ⊢; exact window_enterTerminal hwf
  | tickLaunch hc hi =>
    intro hp
    rw [hi, pitCount_prepareShell] at hp
    exact absurd hp (Nat.not_lt_of_le hc)
  | key hi =>
    rcases keyboardHandler_ret hcur hi with ⟨f, -, hk⟩ | ⟨-, -, hk⟩ | ⟨-, -, con, -, hk⟩ <;>
      rw [hk] at hwf ⊢
    · exact hw
    · exact window_endKey hwf
    · exact window_endKey hwf
  | keyFault text hi hp =>
    obtain ⟨con, kbd, -, -, rfl⟩ := keyboardHandler_fault hcur hi
    intro hpit
    rw [hp] at hpit
    exact (hg hpit).elim
  | read hi =>
    obtain ⟨-, _, a, -, -, -, -, hk⟩ := terminalRead_eq hi
    have hv : (s.io.finishRead a.storeargs).vid = s.io.vid := vid_setEnterFlag (s := { s.io with
      kbd := { s.io.kbd with bufKb := Buf.zero }, storeargs := a.storeargs }) ..
    rw [hk]
    exact fun hp => (hw hp).trans (pageOf_congr (congrArg Vid.buffer hv) rfl s.curTerminal).symm
  | vidmap vram _ hi => exact hi ▸ hw
  | vidmapFault vram text _ hi => exact hi ▸ hw

theorem placed_boot (b : BootIn) : (boot b).Placed :=
  ⟨vid_wf_boot b, cursorsOk_boot b, fun h => absurd h (by simp [boot, Kernel.initPIT])⟩

theorem isolated_write (h : s.Placed) {fd : Int} {buf : Nat} {mem : Nat → UInt8} {n : Int}
    {r : SysResult} (hp : 3 < s.pitCount) (hr : s.sysWrite fd buf mem n = some r) (t : Fin 3) :
    r.state.view t =
      if (t : Int) = s.curTerminal ∧ (s.writeTarget fd buf).isTerminal then
        (s.view t).prints 32 Console.isNewline ((List.range n.toNat).map mem)
      else s.view t := by
  have hview : ∀ u : Kernel, u.io.view t = u.view t := fun _ => rfl
  rcases sysWrite_io hr with ⟨ht, hi⟩ | ⟨ht, hi⟩
  · rw [if_neg (by simp [ht]), ← hview, hi, hview]
  · simp only [ht, and_true]
    rw [← hview, hi, ← hview s]
    exact view_print (s := s.io) (vid_io (s := s) ▸ h.wf) h.cursors.con (h.window hp) _ t

/-- One event from a state with the invariant. -/
theorem screensIsolated_of_placed (h : s.Placed) (e : Event) : ScreensIsolated s e := by
  intro hp s' hs
  cases e with
  | tick esp ebp x =>
    intro t
    have hio : s'.io.view t = s.io.view t := by
      rw [tick_io hp hs]
      exact view_tick (s := s.io) h.cursors.con t
    exact hio
  | key c st =>
    intro t ht
    simp only [Kernel.step] at hs
    split at hs
    · rename_i hr
      cases hs
      exact view_key h.wf h.cursors hr t ht
    · cases hs
  | write fd buf mem n =>
    intro t
    obtain ⟨-, hs⟩ := syscall_eq hs
    obtain ⟨r, hr, rfl⟩ := Option.map_eq_some_iff.mp hs
    exact isolated_write h hp hr t
  | _ => trivial

/-- **The screens of the terminals are isolated from each other along every run.** -/
theorem screens_isolated {b : BootIn} {es : List Event} (h : kernel.Along KeysReturn (boot b) es) :
    kernel.Along ScreensIsolated (boot b) es :=
  Lts.along_of_inv (fun _ _ _ hi hg hs => placed_step hi hg hs)
    (fun _ e hi _ => screensIsolated_of_placed hi e) (placed_boot b) h

/-- The three shells run, a line is typed, the visible terminal changes and its program writes. -/
def typeAndWrite : List Event :=
  sampleLaunches ++ [.tick 0 0 sampleExec] ++ sampleKeys [0x26, 0x38, 0x3C, 0x1E] ++
    [.write 1 0x8000000 (memory [(0, lit ['h', 'i'])]) 2, .tick 0 0 sampleExec]

theorem screens_isolated_sample :
    ((kernel.run (boot sampleBoot) typeAndWrite).map Kernel.pitCount = some 4) ∧
    kernel.Along KeysReturn (boot sampleBoot) typeAndWrite ∧
    kernel.Along ScreensIsolated (boot sampleBoot) typeAndWrite := by
  have hk : kernel.Along KeysReturn (boot sampleBoot) typeAndWrite := by
    refine Lts.Along.mono (fun _ _ h _ => h) (Lts.along_of_mem (A := Event.Returns) ?_)
    simp [typeAndWrite, sampleLaunches, sampleLaunch, sampleKeys, Event.Returns]
  exact ⟨by decide +kernel, hk, screens_isolated hk⟩

end Run

end Mp3
