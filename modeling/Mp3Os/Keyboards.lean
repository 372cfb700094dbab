import Mp3Os.Line
import Mp3Os.Screens

/-!
# The keyboards of the terminals

The line of the visible terminal is in the globals of `keyboard.c`, the lines of the others are
in 8-bit fields of `terminal_t`, and the flag of a finished line is always there
(`Kernel.kbState`). The kernel simulates one driver for each terminal: a key presses on the driver
of the visible terminal, a completed `terminal_read` consumes the line of the reader's terminal,
and every other event, a switch included, leaves all drivers as they are
(`KeyboardsIndependent`).

So a line finished on a terminal waits there until the next read on it (`LineKept`).
`Kbd.Ok` is what keeps the fields in 8 bits and the line without newlines.
-/

namespace Mp3

/-- A `terminal_read` takes the line. -/
def KbState.consume (k : KbState) : KbState := ⟨{ k.kbd with bufKb := Buf.zero }, 1⟩

/-- The driver of a terminal. -/
def Kernel.kbState (s : Kernel) (t : Int) : KbState :=
  ⟨if t = s.visible then s.kbd else (s.terminals t).line, (s.terminals t).enterFlag⟩

/-- What every line has: the counters agree and fit, and no character before them is a
newline. -/
structure Kbd.Ok (k : Kbd) : Prop where
  idx : k.currIdx = k.numChars
  nonneg : 0 ≤ k.numChars
  le : k.numChars ≤ 127
  prevNonneg : 0 ≤ k.previousNumChars
  prevLe : k.previousNumChars ≤ 127
  saveX : k.saveX < 256
  saveY : k.saveY < 256
  line : ∀ i : Fin 128, (i : Int) < k.numChars → k.bufKb i ≠ ch '\n'
  prevLine : ∀ i : Fin 128, (i : Int) < k.previousNumChars → k.previousBuf i ≠ ch '\n'

/-! ## The driver keeps its line well formed -/

section Driver

variable {k : Kbd}

theorem empty_le : (0 : Int) ≤ 127 := by decide

theorem zero_ne_newline (i : Fin 128) : (Buf.zero : Buf 128) i ≠ ch '\n' := by
  show (0 : UInt8) ≠ ch '\n'
  decide

namespace Kbd.Ok

theorem recallLine (h : k.Ok) : k.recallLine.Ok :=
  { h with
    idx := rfl
    nonneg := h.prevNonneg
    le := h.prevLe
    line := h.prevLine }

theorem clearLine (h : k.Ok) : k.clearLine.Ok :=
  { h with
    idx := rfl
    nonneg := Int.le_refl 0
    le := empty_le
    line := fun i _ => zero_ne_newline i }

theorem dropChar (h : k.Ok) (hne : k.currIdx ≠ 0) : k.dropChar.Ok := by
  have hidx := h.idx
  have h0 := h.nonneg
  have h1 := h.le
  refine { h with idx := ?_, nonneg := ?_, le := ?_, line := fun i hi => h.line i ?_ }
  all_goals simp only [Kbd.dropChar] at *; omega

theorem finishLine (h : k.Ok) : k.finishLine.Ok := by
  unfold Kbd.finishLine
  split
  · exact
      { idx := rfl
        nonneg := Int.le_refl 0
        le := empty_le
        prevNonneg := h.nonneg
        prevLe := h.le
        saveX := h.saveX
        saveY := h.saveY
        line := fun i hi => absurd hi (by simp)
        prevLine := fun i hi => by
          simp only [Buf.copyPrefix]
          rw [if_pos hi]
          exact h.line i hi }
  · exact
      { h with
        idx := rfl
        nonneg := Int.le_refl 0
        le := empty_le
        line := fun i hi => absurd hi (by simp) }

theorem notePosition (h : k.Ok) {x y : Nat} (hx : x < 80) (hy : y < 25) :
    (k.notePosition x y).Ok := by
  unfold Kbd.notePosition
  split
  · exact { h with saveX := by simp only; omega, saveY := by simp only; omega }
  · exact h

theorem addChar (h : k.Ok) (hlt : k.numChars < 127) {b : UInt8} (hb : b ≠ ch '\n') :
    (k.addChar b).Ok := by
  have hidx := h.idx
  have h0 := h.nonneg
  refine { h with idx := ?_, nonneg := ?_, le := ?_, line := fun i hi => ?_ }
  · simp only [Kbd.addChar]; omega
  · simp only [Kbd.addChar]; omega
  · simp only [Kbd.addChar]; omega
  · simp only [Kbd.addChar, Buf.set] at hi ⊢
    split
    · exact hb
    · exact h.line i (by omega)

end Kbd.Ok

/-- The tables of characters. -/
def keyTables : List (List UInt8) :=
  [charArray, charArrayShiftNocap, charArrayShiftCap, charArrayNoshiftCap]

/-- The character of a key is in one of the tables. -/
theorem keyChar_mem (f : Flags) (c : Nat) : ∃ l ∈ keyTables, keyChar f c = l.getD c 0 := by
  unfold keyChar
  split_ifs
  · exact ⟨_, by simp [keyTables], rfl⟩
  · exact ⟨_, by simp [keyTables], rfl⟩
  · exact ⟨_, by simp [keyTables], rfl⟩
  · exact ⟨_, by simp [keyTables], rfl⟩

/-- No key types a newline into the line. -/
theorem keyChar_ne_newline (f : Flags) (c : Nat) : keyChar f c ≠ ch '\n' := by
  have htable : ∀ l ∈ keyTables, ∀ b ∈ l, b ≠ ch '\n' := by decide +kernel
  obtain ⟨l, hl, he⟩ := keyChar_mem f c
  rw [he, List.getD_eq_getElem?_getD]
  cases hb : l[c]? with
  | none => decide
  | some b => exact htable l hl b (List.mem_of_getElem? hb)

theorem KbState.press_ok {k : KbState} (h : k.kbd.Ok) (f : Flags) {x y : Nat} (hx : x < 80)
    (hy : y < 25) (c : Nat) : (k.press f x y c).kbd.Ok := by
  unfold KbState.press
  split
  · exact h
  split
  · exact h.recallLine
  unfold KbState.edit
  split
  · exact h.clearLine
  split
  · rename_i hb
    exact h.dropChar hb.2
  split
  · exact h.finishLine
  split
  · exact h
  split
  · rename_i hlt
    have hn := h.notePosition hx hy
    have hlt' : (k.kbd.notePosition x y).numChars < 127 := by
      unfold Kbd.notePosition
      split <;> exact hlt.1
    dsimp only
    split
    · exact hn.addChar hlt' (keyChar_ne_newline f c)
    · exact hn
  · exact h

theorem KbState.consume_ok {k : KbState} (h : k.kbd.Ok) : k.consume.kbd.Ok :=
  { h with line := fun i _ => zero_ne_newline i }

end Driver

/-! ## The drivers under the operations of the kernel -/

section Operations

variable {s s' : Kernel}

theorem kbState_visible : s.kbState s.visible = s.activeKb := by
  simp [Kernel.kbState, Kernel.activeKb]

/-- A change to other fields of a terminal. -/
theorem kbState_modTerm {u : Int} {f : Terminal → Terminal}
    (hl : (f (s.terminals u)).line = (s.terminals u).line)
    (he : (f (s.terminals u)).enterFlag = (s.terminals u).enterFlag) (t : Int) :
    (s.modTerm u f).kbState t = s.kbState t := by
  by_cases ht : t = u
  · subst ht
    simp [Kernel.kbState, Kernel.modTerm, hl, he]
  · simp [Kernel.kbState, Kernel.modTerm, ht]

theorem kbState_saveScreen (u t : Int) : (s.saveScreen u).kbState t = s.kbState t :=
  kbState_modTerm rfl rfl t

theorem kbState_beginKey (t : Int) : s.beginKey.kbState t = s.kbState t :=
  kbState_saveScreen (s := s) s.curTerminal t

theorem kbState_endKey (t : Int) : s.endKey.kbState t = s.kbState t :=
  kbState_saveScreen (s := s.mapWindow) s.visible t

theorem kbState_leaveTerminal (t : Int) : s.leaveTerminal.kbState t = s.kbState t :=
  kbState_saveScreen (s := s.countInterrupt) s.curTerminal t

theorem kbState_enterTerminal (t : Int) : s.enterTerminal.kbState t = s.kbState t := rfl

theorem kbState_freshScreen (t : Int) : s.freshScreen.kbState t = s.kbState t :=
  kbState_saveScreen (s := s.clearScreen) s.curTerminal t

theorem kbState_edited (con : Console) (k : KbState) (t : Int) :
    (s.edited con k).kbState t = if t = s.visible then k else s.kbState t := by
  by_cases ht : t = s.visible
  · subst ht
    simp [Kernel.kbState, Kernel.edited, Kernel.setEnterFlag, Kernel.modTerm]
  · simp [Kernel.kbState, Kernel.edited, Kernel.setEnterFlag, Kernel.modTerm, ht]

theorem kbState_finishRead (a : Buf 1024) (t : Int) :
    (s.finishRead a).kbState t = if t = s.visible then (s.kbState t).consume else s.kbState t := by
  by_cases ht : t = s.visible
  · subst ht
    simp [Kernel.kbState, Kernel.finishRead, Kernel.setEnterFlag, Kernel.modTerm, KbState.consume]
  · simp [Kernel.kbState, Kernel.finishRead, Kernel.setEnterFlag, Kernel.modTerm, ht]

/-- What `switch_terminal` saves of a line it can restore. -/
theorem save_line {k : Kbd} (h : k.Ok) (r : Terminal) (c : Console) : (r.save c k).line = k := by
  have hidx := h.idx
  have h0 := h.nonneg
  have h1 := h.le
  have hp0 := h.prevNonneg
  have hp1 := h.prevLe
  have hx := h.saveX
  have hy := h.saveY
  cases k
  simp only [Terminal.save, Terminal.line, Kbd.mk.injEq, true_and] at *
  omega

/-- `switch_terminal` changes no driver. -/
theorem kbState_switchTerminal (h : s.kbd.Ok) {d : Int} (hd : d ≤ 3) (t : Int) :
    (s.switchTerminal d).kbState t = s.kbState t := by
  by_cases hv : d = s.visible
  · rw [hv, Kernel.switchTerminal_visible]
  rw [Kernel.switchTerminal_of_ne hv hd]
  have hvis : (s.saveVisible.restoreTerminal d).visible = d := rfl
  by_cases htv : t = s.visible
  · subst htv
    have hne : s.visible ≠ d := fun he => hv he.symm
    simp [Kernel.kbState, hne, Kernel.restoreTerminal, Kernel.saveVisible, Kernel.modTerm,
      save_line h]
    rfl
  · by_cases htd : t = d
    · subst htd
      simp [Kernel.kbState, htv, Kernel.restoreTerminal, Kernel.saveVisible, Kernel.modTerm]
    · simp [Kernel.kbState, htv, htd, Kernel.restoreTerminal, Kernel.saveVisible, Kernel.modTerm]

theorem KbState.press_modifier {f f' : Flags} {c : Nat} (hf : modifierKey f c = some f')
    (k : KbState) (x y : Nat) : k.press f x y c = k := by
  rw [KbState.press, hf]
  rfl

theorem KbState.press_switch {f : Flags} {c : Nat} (hs : isSwitch f c) (k : KbState) (x y : Nat) :
    k.press f x y c = k := by
  have hc : c = 0x3B ∨ c = 0x3C ∨ c = 0x3D := hs.1
  unfold KbState.press KbState.edit
  split_ifs <;> first | rfl | omega

/-- A key whose handler returns presses on the driver of the visible terminal. -/
theorem kbState_key (hc : s.CursorsOk) (hk : s.kbd.Ok) {c : Nat} {st : Stack}
    (hr : s.keyboardHandler c st = .ret s') (t : Int) :
    s'.kbState t = if t = s.visible then
        (s.kbState t).press s.flags (s.cursorOf s.visible).1 (s.cursorOf s.visible).2 c
      else s.kbState t := by
  rcases keyboardHandler_ret hc hr with ⟨f, hf, rfl⟩ | ⟨-, hs, rfl⟩ | ⟨-, -, con, -, rfl⟩
  · rw [KbState.press_modifier hf, ite_self]
    rfl
  · have hcode : c = 0x3B ∨ c = 0x3C ∨ c = 0x3D := hs.1
    rw [KbState.press_switch hs, ite_self, kbState_endKey,
      kbState_switchTerminal (s := s.beginKey) hk (by omega), kbState_beginKey]
  · have hx : s.beginKey.con.screenX = (s.cursorOf s.visible).1 :=
      congrArg Prod.fst (cursorAt_beginKey hc.con)
    have hy : s.beginKey.con.screenY = (s.cursorOf s.visible).2 :=
      congrArg Prod.snd (cursorAt_beginKey hc.con)
    rw [kbState_endKey, kbState_edited, kbState_beginKey, hx, hy, ← kbState_visible,
      kbState_beginKey]
    show (if t = s.visible then _ else _) = _
    split
    · rename_i ht
      rw [ht]
      rfl
    · rfl

/-- A key whose handler faults leaves the drivers of the other terminals alone. -/
theorem kbState_keyFault (hc : s.CursorsOk) {c : UInt8} {st : Stack} {xs : List ExecIn}
    (h : s.step (.keyFault c st xs) = some s') :
    ∃ kbd : Kbd, (kbd = s.kbd ∨ c.toNat = 0x48 ∧ kbd = s.kbd.recallLine) ∧
      ∀ t, s'.kbState t = if t = s.visible then ⟨kbd, s.activeKb.enterFlag⟩ else s.kbState t := by
  simp only [Kernel.step] at h
  split at h
  · cases h
  · rename_i u hr
    obtain ⟨con, kbd, -, hk, rfl⟩ := keyboardHandler_fault hc hr
    obtain ⟨text, ht⟩ := exception_io h
    have hflag : s.beginKey.activeKb = s.activeKb := by
      rw [← kbState_visible, ← kbState_visible]
      exact kbState_beginKey s.visible
    refine ⟨kbd, hk, fun t => ?_⟩
    refine (congrArg (fun v => Kernel.kbState v t) ht).trans ?_
    show { s.beginKey with con := con, kbd := kbd }.kbState t = _
    rw [← edited_kbd, kbState_edited, kbState_beginKey, hflag]
    rfl

end Operations

/-! ## Runs -/

/-- All lines are well formed. -/
def Kernel.LinesOk (s : Kernel) : Prop := ∀ t, (s.kbState t).kbd.Ok

/-- What an event may do to the drivers. -/
def KeyboardsIndependent (s : Kernel) (e : Event) : Prop :=
  ∀ s', s.step e = some s' →
    match e with
    | .key c _ => ∀ t : Fin 3, s'.kbState t =
        if (t : Int) = s.visible then (s.kbState t).press s.flags (s.cursorOf s.visible).1
          (s.cursorOf s.visible).2 c.toNat
        else s.kbState t
    | .read fd buf _ _ _ => ∀ t : Fin 3, s'.kbState t =
        if (t : Int) = s.curTerminal ∧ (s.readTarget fd buf).isTerminal then (s.kbState t).consume
        else s.kbState t
    | .keyFault .. => ∀ t : Fin 3, (t : Int) ≠ s.visible → s'.kbState t = s.kbState t
    | _ => ∀ t : Fin 3, s'.kbState t = s.kbState t

/-- The line in the making on the visible terminal. -/
def Kernel.typed (s : Kernel) : List UInt8 := s.kbd.bufKb.toList.take s.kbd.currIdx.toNat

/-- The event neither types nor reads on terminal `t`. Modifier keys and switches do not type. -/
def LeavesLine (t : Int) (s : Kernel) : Event → Prop
  | .key c _ => s.visible = t → (modifierKey s.flags c.toNat).isSome ∨ isSwitch s.flags c.toNat
  | .keyFault .. => s.visible ≠ t
  | .read fd buf _ _ _ => s.curTerminal = t → ¬ (s.readTarget fd buf).isTerminal
  | _ => True

/-- A line finished with Enter now, and followed by nothing typed or read on its terminal, stands
in the buffer byte for byte at the next `terminal_read` there, which does not wait and returns
it. -/
def LineKept (s : Kernel) : Prop :=
  ∀ st s₁ es s₂ n, s.step (.key 0x1C st) = some s₁ → kernel.run s₁ es = some s₂ →
    kernel.Along (LeavesLine s.visible) s₁ es → s₂.visible = s.visible →
    s₂.curTerminal = s.visible → 0 ≤ n →
    HasLine s₂.kbd.bufKb s.typed ∧
    s₂.terminalRead n = some (min ((readBytes s.typed).length : Int) n,
      (readBytes s.typed).take n.toNat, s₂.finishRead (Buf.ofList (argsOf s.typed)))

/-- The stronger property that the read returns every byte of that line, given room for it and
the newline. It fails for a line with arguments, which go to `storeargs`. -/
def LineReturned (s : Kernel) : Prop :=
  ∀ st s₁ es s₂ n, s.step (.key 0x1C st) = some s₁ → kernel.run s₁ es = some s₂ →
    kernel.Along (LeavesLine s.visible) s₁ es → s₂.visible = s.visible →
    s₂.curTerminal = s.visible → (s.typed.length : Int) < n →
    ∃ ret bytes s₃, s₂.terminalRead n = some (ret, bytes, s₃) ∧ s.typed <+: bytes

section Run

variable {s s' : Kernel} {e : Event}

theorem Kernel.LinesOk.kbd (h : s.LinesOk) : s.kbd.Ok := by
  have hv := h s.visible
  rw [kbState_visible] at hv
  exact hv

theorem kbState_read {fd : Int} {buf : Nat} {stack mem : Nat → UInt8} {n : Int} {r : SysResult}
    (h : s.sysRead fd buf stack mem n = some r) (t : Int) :
    r.state.kbState t =
      if t = s.curTerminal ∧ (s.readTarget fd buf).isTerminal then (s.kbState t).consume
      else s.kbState t := by
  have hkb : ∀ u : Kernel, u.io.kbState t = u.kbState t := fun _ => rfl
  rcases sysRead_io h with ⟨ht, hi⟩ | ⟨ht, ret, bytes, hr⟩
  · rw [if_neg (by simp [ht]), ← hkb, hi, hkb]
  · obtain ⟨hw, _, a, -, -, -, -, hs⟩ := terminalRead_eq hr
    have hcur : s.curTerminal = s.visible := by
      by_contra hne
      exact hw (.inr hne)
    simp only [ht, and_true, hcur, hs]
    exact kbState_finishRead ..

/-- The events that are neither keys nor reads. -/
def Event.NoInput : Event → Prop
  | .key .. | .keyFault .. | .read .. => False
  | _ => True

theorem kbState_noInput (h : s.LinesOk) (hs : s.step e = some s') (he : e.NoInput) (t : Int) :
    s'.kbState t = s.kbState t := by
  have hk : s.io.kbd.Ok := h.kbd
  suffices hi : s'.io.kbState t = s.io.kbState t from hi
  have hl := kbState_leaveTerminal (s := s.io) t
  cases ioStep hs with
  | same _ hi => rw [hi]
  | prints text _ hi => rw [hi]; rfl
  | tick _ hi => rw [hi, kbState_enterTerminal, hl]
  | tickLast _ hi =>
    rw [hi, kbState_enterTerminal, ← hl]
    exact kbState_switchTerminal (s := s.io.leaveTerminal) hk (by decide) t
  | tickFail hc hi =>
    rw [hi, kbState_enterTerminal, ← hl, Kernel.prepareShell, kbState_freshScreen]
    exact kbState_switchTerminal (s := s.io.leaveTerminal) hk
      (by exact Int.le_of_lt (Int.ofNat_lt.mpr hc)) t
  | tickLaunch hc hi =>
    rw [hi, ← hl, Kernel.prepareShell, kbState_freshScreen]
    exact kbState_switchTerminal (s := s.io.leaveTerminal) hk
      (by exact Int.le_of_lt (Int.ofNat_lt.mpr hc)) t
  | key hi => exact he.elim
  | keyFault text hi hp => exact he.elim
  | read hi => exact he.elim
  | vidmap vram _ hi => rw [hi]; rfl
  | vidmapFault vram text _ hi => rw [hi]; rfl

/-- **One event on the drivers.** -/
theorem keyboardsIndependent_of_ok (hc : s.CursorsOk) (h : s.LinesOk) (e : Event) :
    KeyboardsIndependent s e := by
  intro s' hs
  cases e with
  | key c st =>
    intro t
    simp only [Kernel.step] at hs
    split at hs
    · rename_i hr
      cases hs
      exact kbState_key hc h.kbd hr t
    · cases hs
  | keyFault c st xs =>
    intro t ht
    obtain ⟨k, -, hk⟩ := kbState_keyFault hc hs
    rw [hk, if_neg ht]
  | read fd buf stack mem n =>
    intro t
    obtain ⟨-, hs⟩ := syscall_eq hs
    obtain ⟨r, hr, rfl⟩ := Option.map_eq_some_iff.mp hs
    exact kbState_read hr t
  | _ => exact fun t => kbState_noInput h hs trivial t

theorem cursorOf_lt (hc : s.CursorsOk) (t : Int) :
    (s.cursorOf t).1 < 80 ∧ (s.cursorOf t).2 < 25 := by
  unfold Kernel.cursorOf
  split
  · exact ⟨hc.con.x, hc.con.y⟩
  · exact hc.saved t

/-- What an event can do to a driver: nothing, a key press, or a read of the line. A key that
faults has done what Up does, or nothing. -/
theorem kbState_step (hc : s.CursorsOk) (h : s.LinesOk) (hs : s.step e = some s') (t : Int) :
    s'.kbState t = s.kbState t ∨ s'.kbState t = (s.kbState t).consume ∨
    ∃ f x y c, x < 80 ∧ y < 25 ∧ s'.kbState t = (s.kbState t).press f x y c := by
  have hcur := cursorOf_lt hc s.visible
  by_cases hn : e.NoInput
  · exact .inl (kbState_noInput h hs hn t)
  cases e with
  | key c st =>
    simp only [Kernel.step] at hs
    split at hs
    · rename_i hr
      cases hs
      rw [kbState_key hc h.kbd hr]
      split
      · exact .inr (.inr ⟨_, _, _, _, hcur.1, hcur.2, rfl⟩)
      · exact .inl rfl
    · cases hs
  | keyFault c st xs =>
    obtain ⟨kbd, hkbd, hk⟩ := kbState_keyFault hc hs
    rw [hk]
    split
    · rename_i ht
      rw [ht, kbState_visible]
      rcases hkbd with rfl | ⟨-, rfl⟩
      · exact .inl rfl
      · exact .inr (.inr ⟨s.flags, 0, 0, 0x48, by decide, by decide, rfl⟩)
    · exact .inl rfl
  | read fd buf stack mem n =>
    obtain ⟨-, hs⟩ := syscall_eq hs
    obtain ⟨r, hr, rfl⟩ := Option.map_eq_some_iff.mp hs
    rw [kbState_read hr]
    split
    · exact .inr (.inl rfl)
    · exact .inl rfl
  | _ => exact absurd trivial hn

/-- The lines stay well formed. -/
theorem linesOk_step (hc : s.CursorsOk) (h : s.LinesOk) (hs : s.step e = some s') : s'.LinesOk := by
  intro t
  obtain hk | hk | ⟨f, x, y, c, hx, hy, hk⟩ := kbState_step hc h hs t
  · rw [hk]
    exact h t
  · rw [hk]
    exact KbState.consume_ok (h t)
  · rw [hk]
    exact KbState.press_ok (h t) f hx hy c

theorem linesOk_boot (b : BootIn) : (boot b).LinesOk := by
  have hz : (⟨Buf.zero, 0, 0, 0, 0, Buf.zero, 0⟩ : Kbd).Ok :=
    ⟨rfl, Int.le_refl 0, empty_le, Int.le_refl 0, empty_le, Nat.zero_lt_succ 255,
      Nat.zero_lt_succ 255, fun i _ => zero_ne_newline i, fun i _ => zero_ne_newline i⟩
  intro t
  simp only [Kernel.kbState]
  split
  · exact hz
  · simp only [boot, Kernel.initPIT, Kernel.initTerminals]
    split <;> exact hz

/-- The invariant of the drivers in a reachable state. -/
theorem linesOk_run {b : BootIn} {es : List Event} (h : kernel.run (boot b) es = some s) :
    s.CursorsOk ∧ s.LinesOk :=
  Lts.run_inv' (I := fun s => s.CursorsOk ∧ s.LinesOk)
    (fun _ _ _ hi hs => ⟨cursorsOk_step hi.1 hs, linesOk_step hi.1 hi.2 hs⟩)
    ⟨cursorsOk_boot b, linesOk_boot b⟩ h

/-! ### A finished line -/

theorem kbState_leavesLine (hc : s.CursorsOk) (h : s.LinesOk) {t : Int} (hl : LeavesLine t s e)
    (hs : s.step e = some s') : s'.kbState t = s.kbState t := by
  cases e with
  | key c st =>
    simp only [Kernel.step] at hs
    split at hs
    · rename_i hr
      cases hs
      rw [kbState_key hc h.kbd hr]
      split
      · rename_i ht
        rcases hl ht.symm with hm | hsw
        · obtain ⟨f, hf⟩ := Option.isSome_iff_exists.mp hm
          exact KbState.press_modifier hf ..
        · exact KbState.press_switch hsw ..
      · rfl
    · cases hs
  | keyFault c st xs =>
    obtain ⟨k, -, hk⟩ := kbState_keyFault hc hs
    rw [hk, if_neg (Ne.symm hl)]
  | read fd buf stack mem n =>
    obtain ⟨-, hs⟩ := syscall_eq hs
    obtain ⟨r, hr, rfl⟩ := Option.map_eq_some_iff.mp hs
    rw [kbState_read hr, if_neg fun ht => hl ht.1.symm ht.2]
  | _ => exact kbState_noInput h hs trivial t

/-- Enter puts a newline behind the line. -/
theorem Kbd.Ok.hasLine {k : Kbd} (h : k.Ok) :
    HasLine k.finishLine.bufKb (k.bufKb.toList.take k.currIdx.toNat) := by
  have hidx := h.idx
  have h0 := h.nonneg
  have h1 := h.le
  refine ⟨fun hm => ?_, k.bufKb.toList.drop (k.currIdx.toNat + 1), ?_⟩
  · obtain ⟨i, hi, hb⟩ := List.mem_take_iff_getElem.mp hm
    rw [Buf.getElem_toList] at hb
    simp only [Buf.length_toList] at hi
    exact h.line ⟨i, by omega⟩ (by simp only; omega) hb
  · have hbuf : k.finishLine.bufKb = k.bufKb.set k.currIdx (ch '\n') := by
      unfold Kbd.finishLine
      split <;> rfl
    have hcast : (k.currIdx.toNat : Int) = k.currIdx := by omega
    rw [hbuf, ← Buf.toList_set _ _ (by omega), hcast]

theorem press_enter (k : KbState) (f : Flags) (x y : Nat) :
    k.press f x y 0x1C = ⟨k.kbd.finishLine, 0⟩ := by
  simp [KbState.press, KbState.edit, modifierKey]

/-- **A finished line waits for the next read on its terminal.** -/
theorem lineKept (hc : s.CursorsOk) (h : s.LinesOk) : LineKept s := by
  intro st s₁ es s₂ n hs hr hl hv hcur hn
  have hc₁ := cursorsOk_step hc hs
  have hl₁ := linesOk_step hc h hs
  have henter : s₁.kbState s.visible = ⟨s.kbd.finishLine, 0⟩ := by
    simp only [Kernel.step] at hs
    split at hs
    · rename_i hk
      cases hs
      rw [kbState_key hc h.kbd hk, if_pos rfl, kbState_visible]
      exact press_enter ..
    · cases hs
  have hkept : s₂.kbState s.visible = ⟨s.kbd.finishLine, 0⟩ := by
    refine (Lts.run_inv (I := fun u => u.CursorsOk ∧ u.LinesOk ∧
      u.kbState s.visible = ⟨s.kbd.finishLine, 0⟩) ?_ ⟨hc₁, hl₁, henter⟩ hl hr).2.2
    rintro u e u' ⟨huc, hul, huk⟩ hg hu
    exact ⟨cursorsOk_step huc hu, linesOk_step huc hul hu,
      (kbState_leavesLine huc hul hg hu).trans huk⟩
  rw [← hv, kbState_visible] at hkept
  have hkbd : s₂.kbd = s.kbd.finishLine := congrArg KbState.kbd hkept
  have hflag : (s₂.terminals s₂.visible).enterFlag = 0 := congrArg KbState.enterFlag hkept
  have hline : HasLine s₂.kbd.bufKb s.typed := by
    rw [hkbd]
    exact h.kbd.hasLine
  refine ⟨hline, terminalRead_line (fun hw => ?_) hline hn⟩
  rcases hw with hw | hw
  · exact hw hflag
  · exact hw (hcur.trans hv.symm)

/-- **The keyboards of the terminals are independent in every reachable state.** -/
theorem keyboards_independent {b : BootIn} {es : List Event}
    (h : kernel.run (boot b) es = some s) : (∀ e, KeyboardsIndependent s e) ∧ LineKept s := by
  obtain ⟨hc, hl⟩ := linesOk_run h
  exact ⟨fun e => keyboardsIndependent_of_ok hc hl e, lineKept hc hl⟩

/-- `ls` is typed on the small machine. -/
theorem keyboards_independent_sample :
    ∃ s, kernel.run (boot sampleBoot) (sampleLaunches ++ sampleKeys [0x26, 0x1F]) = some s ∧
      s.typed = lit ['l', 's'] ∧ (∀ e, KeyboardsIndependent s e) ∧ LineKept s := by
  have hv : (kernel.run (boot sampleBoot) (sampleLaunches ++ sampleKeys [0x26, 0x1F])).map
      Kernel.typed = some (lit ['l', 's']) := by decide +kernel
  obtain ⟨s, hs, hv⟩ := Option.map_eq_some_iff.mp hv
  exact ⟨s, hs, hv, keyboards_independent hs⟩

/-- `ls a` and Enter: the read returns `ls`, and `a` goes to `storeargs`. -/
theorem read_returns_command_only :
    ∃ s, kernel.run (boot sampleBoot) (sampleLaunches ++ sampleKeys [0x26, 0x1F, 0x39, 0x1E]) =
      some s ∧ ¬ LineReturned s := by
  have hline : (kernel.run (boot sampleBoot)
      (sampleLaunches ++ sampleKeys [0x26, 0x1F, 0x39, 0x1E])).map (fun s =>
        (s.typed, s.visible)) = some (lit ['l', 's', ' ', 'a'], 2) := by decide +kernel
  have hread : ((kernel.run (boot sampleBoot)
      (sampleLaunches ++ sampleKeys [0x26, 0x1F, 0x39, 0x1E])).bind fun s =>
        s.step (.key 0x1C ⟨fun _ => 0, fun _ => none, fun _ => 0⟩)).map (fun s₁ =>
          (s₁.visible, s₁.curTerminal, (s₁.terminalRead 128).map fun r => r.2.1)) =
      some (2, 2, some (lit ['l', 's'])) := by decide +kernel
  obtain ⟨s, hs, hv⟩ := Option.map_eq_some_iff.mp hline
  obtain ⟨htyped, hvis⟩ := Prod.mk.inj hv
  rw [hs, Option.bind_some] at hread
  obtain ⟨s₁, hs₁, hv⟩ := Option.map_eq_some_iff.mp hread
  simp only [Prod.mk.injEq] at hv
  obtain ⟨hvis₁, hcur₁, hv⟩ := hv
  refine ⟨s, hs, fun h => ?_⟩
  obtain ⟨ret, bytes, s₃, hr, hb⟩ := h _ s₁ [] s₁ 128 hs₁ rfl trivial (hvis₁.trans hvis.symm)
    (hcur₁.trans hvis.symm) (by rw [htyped]; decide)
  rw [hr] at hv
  obtain rfl : bytes = lit ['l', 's'] := Option.some.inj hv
  rw [htyped] at hb
  exact absurd hb.length_le (by decide)

-- `ls` and Enter on terminal 2, then a line on terminal 0, then a read on terminal 2
example : ((kernel.run (boot sampleBoot) (sampleLaunches ++
      sampleKeys [0x26, 0x1F, 0x1C, 0x38, 0x3B, 0x1E, 0x1C, 0x3D])).bind (·.terminalRead 128)).map
    (fun r => (r.1, r.2.1)) = some (3, lit ['l', 's', '\n']) := by decide +kernel

end Run

end Mp3
