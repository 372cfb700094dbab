import Mp3Os.Keyboards

/-!
# The line discipline as an editor

`LineEditor` is the reference: a line and the previous line, and what a key does to them. It has
no buffer and no counters. `Kbd.editor` reads it off the variables of `keyboard.c`, and a key does
the same to both (`press_editor`).

`Kbd.stores` lists where a key stores into the two buffers; the counters stay below their ends
(`stores_inside`).

`editing` runs the reference editor of a terminal beside the kernel. They agree after every event
of a run, as long as no handler of a key faults there and no `terminal_read` takes the line
(`editor_refined`).
-/

namespace Mp3

/-! ## The reference -/

/-- A line in the making, and the one before it. -/
@[ext] structure LineEditor where
  line : List UInt8
  previous : List UInt8
  deriving DecidableEq

namespace LineEditor

variable (ed : LineEditor)

/-- A character goes to the end of the line if it has fewer than 127. -/
def type (b : UInt8) : LineEditor :=
  if ed.line.length < 127 then { ed with line := ed.line ++ [b] } else ed

/-- The last character goes, if there is one. -/
def erase : LineEditor := { ed with line := ed.line.dropLast }

/-- The line is emptied. -/
def clear : LineEditor := { ed with line := [] }

/-- The previous line comes back. -/
def restore : LineEditor := { ed with line := ed.previous }

/-- The line is finished: it becomes the previous one, if it is not empty. -/
def enter : LineEditor := ⟨[], if ed.line = [] then ed.previous else ed.line⟩

/-- What a key does: Up, Ctrl+L, Backspace, Enter, or a key with a character. -/
def key (f : Flags) (scanCode : Nat) : LineEditor :=
  if scanCode = 0x48 then ed.restore
  else if f.ctrl ≠ 0 ∧ scanCode = 0x26 then ed.clear
  else if scanCode = 0x0E then ed.erase
  else if scanCode = 0x1C then ed.enter
  else if keyChar f scanCode ≠ 0 then ed.type (keyChar f scanCode)
  else ed

end LineEditor

namespace Kbd

variable (k : Kbd)

/-- The editor that the variables of the driver stand for. -/
def editor : LineEditor :=
  ⟨k.bufKb.toList.take k.numChars.toNat, k.previousBuf.toList.take k.previousNumChars.toNat⟩

/-- The indices of a whole buffer of 128 bytes. -/
def allIndices : List Int := (List.range 128).map Int.ofNat

/-- Where a key stores into `buf_kb` and into `previous_buf`. A switch copies whole buffers. -/
def stores (f : Flags) (scanCode : Nat) : List Int × List Int :=
  if (modifierKey f scanCode).isSome then ([], [])
  else if scanCode = 0x48 then (allIndices, [])
  else if f.ctrl ≠ 0 ∧ scanCode = 0x26 then (allIndices, [])
  else if scanCode = 0x0E ∧ k.currIdx ≠ 0 then ([], [])
  else if scanCode = 0x1C then
    ([k.currIdx], if k.numChars ≠ 0 then
      allIndices ++ (List.range (u32 k.numChars)).map Int.ofNat else [])
  else if isSwitch f scanCode then (allIndices, allIndices)
  else if k.numChars < 127 ∧ 0 < scanCode ∧ scanCode < 0x3B then
    (if keyChar f scanCode ≠ 0 then [k.currIdx] else [], [])
  else ([], [])

end Kbd

/-! ## One key -/

section Key

variable {k : Kbd} {f : Flags} {c : Nat}

theorem toList_copyPrefix (a b : Buf 128) {n : Nat} (hn : n ≤ 128) :
    (Buf.copyPrefix a b n).toList.take n = b.toList.take n := by
  apply List.ext_getElem
  · simp
  · intro i hi _
    simp only [List.length_take, Buf.length_toList] at hi
    rw [List.getElem_take, List.getElem_take, Buf.getElem_toList, Buf.getElem_toList]
    exact if_pos (by simp only; omega)

namespace Kbd.Ok

theorem length_line (h : k.Ok) : (k.editor.line.length : Int) = k.numChars := by
  have h0 := h.nonneg
  have h1 := h.le
  simp only [editor, List.length_take, Buf.length_toList]
  omega

theorem editor_clearLine : k.clearLine.editor = k.editor.clear := by
  simp [editor, Kbd.clearLine, LineEditor.clear]

theorem editor_dropChar (h : k.Ok) : k.dropChar.editor = k.editor.erase := by
  have h0 := h.nonneg
  have h1 := h.le
  have hn : (k.numChars - 1).toNat = k.numChars.toNat - 1 := by omega
  simp only [editor, Kbd.dropChar, LineEditor.erase, hn]
  rw [List.dropLast_take (by rw [Buf.length_toList]; omega)]

theorem editor_finishLine (h : k.Ok) : k.finishLine.editor = k.editor.enter := by
  have h0 := h.nonneg
  have h1 := h.le
  have hlen := h.length_line
  have hempty : k.editor.line = [] ↔ k.numChars = 0 := by
    rw [← List.length_eq_zero_iff]
    omega
  unfold Kbd.finishLine LineEditor.enter
  by_cases hn : k.numChars = 0
  · rw [if_neg (by simpa using hn), if_pos (hempty.mpr hn)]
    simp [editor]
  · have hcast : ((k.numChars.toNat : Nat) : Int) = k.numChars := by omega
    have hcopy := toList_copyPrefix Buf.zero k.bufKb (n := k.numChars.toNat) (by omega)
    rw [hcast] at hcopy
    rw [if_pos hn, if_neg (mt hempty.mp hn)]
    simp only [editor, hcopy]
    rfl

theorem editor_addChar (h : k.Ok) (hlt : k.numChars < 127) (b : UInt8) :
    (k.addChar b).editor = k.editor.type b := by
  have h0 := h.nonneg
  have hlen := h.length_line
  have hidx : k.currIdx = (k.numChars.toNat : Int) := by rw [h.idx]; omega
  have hn : (k.numChars + 1).toNat = k.numChars.toNat + 1 := by omega
  rw [LineEditor.type, if_pos (by omega)]
  simp only [editor, Kbd.addChar, hidx, hn]
  rw [Buf.toList_set _ _ (by omega), List.append_cons]
  congr 1
  exact List.take_left' (by simp; omega)

end Kbd.Ok

/-- A key without a character in any table. -/
theorem keyChar_eq_zero (f : Flags) (h : ∀ l ∈ keyTables, l.getD c 0 = 0) : keyChar f c = 0 := by
  obtain ⟨l, hl, he⟩ := keyChar_mem f c
  rw [he, h l hl]

/-- The tables end before F1. -/
theorem keyChar_of_le (f : Flags) (h : 0x3B ≤ c) : keyChar f c = 0 := by
  have hlen : ∀ l ∈ keyTables, l.length = 0x3B := by decide +kernel
  apply keyChar_eq_zero
  intro l hl
  rw [List.getD_eq_getElem?_getD, List.getElem?_eq_none (by rw [hlen l hl]; exact h)]
  rfl

theorem keyChar_zero (f : Flags) : keyChar f 0 = 0 := keyChar_eq_zero f (by decide +kernel)

/-- A key that does nothing to the line has no character and is none of the editing keys. -/
theorem key_none {ed : LineEditor} (hup : c ≠ 0x48) (hctrl : ¬ (f.ctrl ≠ 0 ∧ c = 0x26))
    (hback : c ≠ 0x0E) (henter : c ≠ 0x1C) (hchar : keyChar f c = 0) : ed.key f c = ed := by
  rw [LineEditor.key, if_neg hup, if_neg hctrl, if_neg hback, if_neg henter,
    if_neg (by simpa using hchar)]

/-- The modifier keys type nothing. -/
theorem key_modifier {ed : LineEditor} (h : (modifierKey f c).isSome) : ed.key f c = ed := by
  have hcode : c ∈ [0x2A, 0xAA, 0x36, 0xB6, 0x1D, 0x9D, 0x3A, 0x38, 0xB8] := by
    by_contra hc
    simp only [List.mem_cons, List.not_mem_nil, or_false, not_or] at hc
    simp [modifierKey, hc] at h
  have hchar : ∀ c ∈ [0x2A, 0xAA, 0x36, 0xB6, 0x1D, 0x9D, 0x3A, 0x38, 0xB8],
      (∀ l ∈ keyTables, l.getD c 0 = 0) ∧ c ≠ 0x48 ∧ c ≠ 0x26 ∧ c ≠ 0x0E ∧ c ≠ 0x1C := by decide +kernel
  obtain ⟨hzero, hup, hl, hback, henter⟩ := hchar c hcode
  exact key_none hup (fun h => hl h.2) hback henter (keyChar_eq_zero f hzero)

/-- The branch for characters. -/
theorem edit_editor {k : KbState} (h : k.kbd.Ok) (x y : Nat) (hctrl : ¬ (f.ctrl ≠ 0 ∧ c = 0x26))
    (hback : ¬ (c = 0x0E ∧ k.kbd.currIdx ≠ 0)) (henter : c ≠ 0x1C) :
    (k.edit f x y c).kbd.editor =
      if keyChar f c ≠ 0 then k.kbd.editor.type (keyChar f c) else k.kbd.editor := by
  rw [KbState.edit, if_neg hctrl, if_neg hback, if_neg henter]
  split
  · -- a switch
    rename_i hs
    have hc : c = 0x3B ∨ c = 0x3C ∨ c = 0x3D := hs.1
    rw [if_neg (by simpa using keyChar_of_le f (by omega))]
  split
  · rename_i hc
    dsimp only
    split
    · rw [← h.editor_addChar hc.1]
      unfold Kbd.notePosition
      split <;> rfl
    · unfold Kbd.notePosition
      split <;> rfl
  · rename_i hc
    split
    · -- the line is full
      rename_i hchar
      have hpos : c ≠ 0 := fun h0 => hchar (h0 ▸ keyChar_zero f)
      have hf1 : c < 0x3B := by
        by_contra hge
        exact hchar (keyChar_of_le f (by omega))
      have hlen := h.length_line
      rw [LineEditor.type, if_neg (by omega)]
    · rfl

/-- **A key does to the driver what it does to the reference.** -/
theorem press_editor {k : KbState} (h : k.kbd.Ok) (f : Flags) (x y c : Nat) :
    (k.press f x y c).kbd.editor = k.kbd.editor.key f c := by
  unfold KbState.press
  split
  · rename_i hm
    exact (key_modifier hm).symm
  unfold LineEditor.key
  split
  · rfl
  split
  · rename_i hctrl
    rw [KbState.edit, if_pos hctrl]
    exact Kbd.Ok.editor_clearLine
  rename_i hctrl
  split
  · rename_i hback
    by_cases hidx : k.kbd.currIdx ≠ 0
    · rw [KbState.edit, if_neg hctrl, if_pos ⟨hback, hidx⟩]
      exact h.editor_dropChar
    · -- an empty line: Backspace gets to the characters, and has none
      rw [edit_editor h x y hctrl (fun hb => hidx hb.2) (by omega), hback,
        if_neg (by simpa using keyChar_eq_zero f (by decide +kernel))]
      have hlen := h.length_line
      have hnil : k.kbd.editor.line = [] := by
        rw [← List.length_eq_zero_iff]
        have := h.idx
        omega
      rw [LineEditor.erase, hnil]
      exact LineEditor.ext hnil rfl
  rename_i hback
  split
  · rename_i henter
    rw [KbState.edit, if_neg hctrl, if_neg fun hb => hback hb.1, if_pos henter]
    exact h.editor_finishLine
  · rename_i henter
    exact edit_editor h x y hctrl (fun hb => hback hb.1) henter

/-! ### The stores -/

/-- The indices are in a buffer of 128 bytes. -/
def InBuffer (l : List Int) : Prop := ∀ i ∈ l, 0 ≤ i ∧ i < 128

theorem inBuffer_range {n : Nat} (h : n ≤ 128) : InBuffer ((List.range n).map Int.ofNat) := by
  intro i hi
  obtain ⟨m, hm, rfl⟩ := List.mem_map.mp hi
  have hm := List.mem_range.mp hm
  simp only [Int.ofNat_eq_natCast]
  omega

theorem inBuffer_ite {b : Prop} [Decidable b] {l l' : List Int} (h : InBuffer l)
    (h' : InBuffer l') : InBuffer (if b then l else l') := by
  split
  · exact h
  · exact h'

theorem inBuffers_ite {b : Prop} [Decidable b] {p q : List Int × List Int}
    (hp : InBuffer p.1 ∧ InBuffer p.2) (hq : InBuffer q.1 ∧ InBuffer q.2) :
    InBuffer (if b then p else q).1 ∧ InBuffer (if b then p else q).2 := by
  split
  · exact hp
  · exact hq

/-- The stores of a key are in the buffers, in each of its branches. -/
theorem stores_inside (h : k.Ok) (f : Flags) (c : Nat) :
    InBuffer (k.stores f c).1 ∧ InBuffer (k.stores f c).2 := by
  have hidx := h.idx
  have h0 := h.nonneg
  have h1 := h.le
  have hnil : InBuffer [] := List.forall_mem_nil _
  have hall : InBuffer Kbd.allIndices := inBuffer_range (Nat.le_refl _)
  have hcurr : InBuffer [k.currIdx] := List.forall_mem_singleton.mpr ⟨by omega, by omega⟩
  have hcopied : InBuffer ((List.range (u32 k.numChars)).map Int.ofNat) := by
    apply inBuffer_range
    rw [u32_eq_toNat (by omega) (by omega)]
    omega
  unfold Kbd.stores
  refine inBuffers_ite ⟨hnil, hnil⟩ ?_
  refine inBuffers_ite ⟨hall, hnil⟩ ?_
  refine inBuffers_ite ⟨hall, hnil⟩ ?_
  refine inBuffers_ite ⟨hnil, hnil⟩ ?_
  refine inBuffers_ite ⟨hcurr, inBuffer_ite (List.forall_mem_append.mpr ⟨hall, hcopied⟩) hnil⟩ ?_
  refine inBuffers_ite ⟨hall, hall⟩ ?_
  exact inBuffers_ite ⟨inBuffer_ite hcurr hnil, hnil⟩ ⟨hnil, hnil⟩

theorem fin_mem_allIndices (i : Fin 128) : (i : Int) ∈ Kbd.allIndices :=
  List.mem_map.mpr ⟨i, List.mem_range.mpr i.2, rfl⟩

/-- A key leaves the bytes of both buffers alone that it does not store. -/
theorem press_stores (k : KbState) (f : Flags) (x y c : Nat) (i : Fin 128) :
    ((i : Int) ∉ (k.kbd.stores f c).1 → (k.press f x y c).kbd.bufKb i = k.kbd.bufKb i) ∧
    ((i : Int) ∉ (k.kbd.stores f c).2 →
      (k.press f x y c).kbd.previousBuf i = k.kbd.previousBuf i) := by
  have hset : ∀ b, (i : Int) ∉ [k.kbd.currIdx] → (k.kbd.bufKb.set k.kbd.currIdx b) i = k.kbd.bufKb i :=
    fun b hi => Buf.set_ne _ _ (fun he => hi (List.mem_singleton.mpr he))
  unfold KbState.press Kbd.stores KbState.edit
  by_cases hm : (modifierKey f c).isSome
  · rw [if_pos hm, if_pos hm]
    exact ⟨fun _ => rfl, fun _ => rfl⟩
  rw [if_neg hm, if_neg hm]
  by_cases hup : c = 0x48
  · rw [if_pos hup, if_pos hup]
    exact ⟨fun h => absurd (fin_mem_allIndices i) h, fun _ => rfl⟩
  rw [if_neg hup, if_neg hup]
  by_cases hctrl : f.ctrl ≠ 0 ∧ c = 0x26
  · rw [if_pos hctrl, if_pos hctrl]
    exact ⟨fun h => absurd (fin_mem_allIndices i) h, fun _ => rfl⟩
  rw [if_neg hctrl, if_neg hctrl]
  by_cases hback : c = 0x0E ∧ k.kbd.currIdx ≠ 0
  · rw [if_pos hback, if_pos hback]
    exact ⟨fun _ => rfl, fun _ => rfl⟩
  rw [if_neg hback, if_neg hback]
  by_cases henter : c = 0x1C
  · rw [if_pos henter, if_pos henter]
    unfold Kbd.finishLine
    by_cases hn : k.kbd.numChars ≠ 0
    · rw [if_pos hn, if_pos hn]
      exact ⟨hset _, fun h => absurd (List.mem_append_left _ (fin_mem_allIndices i)) h⟩
    · rw [if_neg hn, if_neg hn]
      exact ⟨hset _, fun _ => rfl⟩
  rw [if_neg henter, if_neg henter]
  by_cases hs : isSwitch f c
  · rw [if_pos hs, if_pos hs]
    exact ⟨fun _ => rfl, fun _ => rfl⟩
  rw [if_neg hs, if_neg hs]
  by_cases hc : k.kbd.numChars < 127 ∧ 0 < c ∧ c < 0x3B
  · rw [if_pos hc, if_pos hc]
    unfold Kbd.notePosition
    dsimp only
    by_cases hb : keyChar f c ≠ 0
    · rw [if_pos hb, if_pos hb]
      split <;> exact ⟨hset _, fun _ => rfl⟩
    · rw [if_neg hb, if_neg hb]
      split <;> exact ⟨fun _ => rfl, fun _ => rfl⟩
  · rw [if_neg hc, if_neg hc]
    exact ⟨fun _ => rfl, fun _ => rfl⟩

end Key

/-! ## Runs -/

/-- The reference editor of terminal `t` gets the keys that come while `t` is visible. -/
def noteKey (t : Int) (ed : LineEditor) (s : Kernel) : Event → Kernel → LineEditor
  | .key c _, _ => if s.visible = t then ed.key s.flags c.toNat else ed
  | _, _ => ed

/-- The kernel with the reference editor of terminal `t`. -/
def editing (t : Int) : Lts (Kernel × LineEditor) Event := kernel.withGhost (noteKey t)

/-- No handler of a key faults while `t` is visible, and no `terminal_read` takes a line of `t`. -/
def OnlyTypes (t : Int) (p : Kernel × LineEditor) : Event → Prop
  | .keyFault .. => p.1.visible ≠ t
  | .read fd buf _ _ _ => p.1.curTerminal = t → ¬ (p.1.readTarget fd buf).isTerminal
  | _ => True

instance (t : Int) (p : Kernel × LineEditor) (e : Event) : Decidable (OnlyTypes t p e) :=
  match e with
  | .keyFault .. => inferInstanceAs (Decidable (_ ≠ _))
  | .read .. => inferInstanceAs (Decidable (_ → _))
  | .key .. | .tick .. | .tickLaunch .. | .execUser .. | .execFail .. | .halt .. => isTrue trivial
  | .exception .. | .openFd .. | .closeFd .. | .write .. | .getargs .. => isTrue trivial
  | .vidmap .. | .vidmapFault .. => isTrue trivial

/-- A driver has the lines of the reference, and its counters are right. -/
structure Refines (k : Kbd) (ed : LineEditor) : Prop where
  idx : k.currIdx = k.numChars
  nonneg : 0 ≤ k.currIdx
  le : k.numChars ≤ 127
  prevNonneg : 0 ≤ k.previousNumChars
  prevLe : k.previousNumChars ≤ 127
  line : k.bufKb.toList.take k.numChars.toNat = ed.line
  previous : k.previousBuf.toList.take k.previousNumChars.toNat = ed.previous

/-- The driver of terminal `t` has the lines of the reference; it is that of `keyboard.c` while `t`
is visible. -/
def RefinesOn (t : Int) (p : Kernel × LineEditor) : Prop :=
  Refines (p.1.kbState t).kbd p.2 ∧ (p.1.visible = t → Refines p.1.kbd p.2)

/-- A key stores inside the two buffers. -/
def StoresInside (s : Kernel) (c : UInt8) : Prop :=
  ∀ i, i ∈ (s.kbd.stores s.flags c.toNat).1 ∨ i ∈ (s.kbd.stores s.flags c.toNat).2 →
    0 ≤ i ∧ i < 128

/-- Every key stores inside the buffers, and Enter leaves the line of the reference and a newline
in `buf_kb`. -/
def TypesInside (t : Int) (p : Kernel × LineEditor) : Event → Prop
  | .key c st => StoresInside p.1 c ∧ (p.1.visible = t → c = 0x1C →
      ∀ s', p.1.step (.key c st) = some s' → p.2.line ++ [ch '\n'] <+: s'.kbd.bufKb.toList)
  | .keyFault c _ _ => StoresInside p.1 c
  | _ => True

section Run

variable {s s' : Kernel} {ed : LineEditor} {t : Int} {e : Event}

/-- What holds along a run: the drivers are well formed, and that of `t` stands for the reference
editor. -/
structure Edits (t : Int) (p : Kernel × LineEditor) : Prop where
  cursors : p.1.CursorsOk
  lines : p.1.LinesOk
  same : (p.1.kbState t).kbd.editor = p.2

theorem Edits.refines {p : Kernel × LineEditor} (h : Edits t p) :
    Refines (p.1.kbState t).kbd p.2 := by
  have hk := h.lines t
  have hs := h.same
  have hidx := hk.idx
  have h0 := hk.nonneg
  exact
    { idx := hidx
      nonneg := by omega
      le := hk.le
      prevNonneg := hk.prevNonneg
      prevLe := hk.prevLe
      line := congrArg LineEditor.line hs
      previous := congrArg LineEditor.previous hs }

theorem Edits.refinesOn {p : Kernel × LineEditor} (h : Edits t p) : RefinesOn t p := by
  refine ⟨h.refines, fun hv => ?_⟩
  have hr := h.refines
  rw [← hv, kbState_visible] at hr
  exact hr

/-- **One event keeps them.** -/
theorem edits_step (h : Edits t (s, ed)) (hg : OnlyTypes t (s, ed) e) (hs : s.step e = some s') :
    Edits t (s', noteKey t ed s e s') := by
  refine ⟨cursorsOk_step h.cursors hs, linesOk_step h.cursors h.lines hs, ?_⟩
  have hind : (s.kbState t).kbd.editor = ed := h.same
  cases e with
  | key c st =>
    simp only [Kernel.step] at hs
    split at hs
    · rename_i hr
      cases hs
      show _ = if s.visible = t then ed.key s.flags c.toNat else ed
      rw [kbState_key h.cursors h.lines.kbd hr]
      by_cases ht : t = s.visible
      · rw [if_pos ht, if_pos ht.symm, press_editor (h.lines t), hind]
      · rw [if_neg ht, if_neg (Ne.symm ht), hind]
    · cases hs
  | keyFault c st xs =>
    obtain ⟨kbd, -, hk⟩ := kbState_keyFault h.cursors hs
    rw [hk, if_neg fun ht => hg ht.symm]
    exact hind
  | read fd buf stack mem n =>
    obtain ⟨-, hs⟩ := syscall_eq hs
    obtain ⟨r, hr, rfl⟩ := Option.map_eq_some_iff.mp hs
    rw [kbState_read hr, if_neg fun ht => hg ht.1.symm ht.2]
    exact hind
  | _ =>
    rw [kbState_noInput h.lines hs trivial]
    exact hind

theorem visible_edited (con : Console) (k : KbState) :
    (s.edited con k).endKey.visible = s.visible := rfl

/-- Enter leaves the visible terminal as it is. -/
theorem enter_kbd (hc : s.CursorsOk) (hk : s.kbd.Ok) {st : Stack}
    (hs : s.step (.key 0x1C st) = some s') : s'.kbd = s.kbd.finishLine := by
  simp only [Kernel.step] at hs
  split at hs
  · rename_i hr
    cases hs
    have hvis : s'.visible = s.visible := by
      rcases keyboardHandler_ret hc hr with ⟨f, hf, rfl⟩ | ⟨-, hsw, -⟩ | ⟨-, -, con, -, rfl⟩
      · rfl
      · exact absurd hsw.1 (by decide)
      · exact visible_edited ..
    have hpress := kbState_key hc hk hr s.visible
    rw [if_pos rfl, ← hvis, kbState_visible, hvis, kbState_visible] at hpress
    exact (congrArg KbState.kbd hpress).trans (congrArg KbState.kbd (press_enter ..))
  · cases hs

theorem Kernel.LinesOk.storesInside (h : s.LinesOk) (c : UInt8) : StoresInside s c := by
  intro i hi
  have hin := stores_inside h.kbd s.flags c.toNat
  cases hi with
  | inl hi => exact hin.1 i hi
  | inr hi => exact hin.2 i hi

/-- A key stores inside the buffers, and Enter leaves the line and its newline. -/
theorem Edits.typesInside (h : Edits t (s, ed)) : TypesInside t (s, ed) e := by
  cases e with
  | key c st =>
    refine ⟨h.lines.storesInside c, ?_⟩
    rintro hv rfl s' hs
    obtain ⟨-, rest, hbuf⟩ := h.lines.kbd.hasLine
    have hline : s.kbd.bufKb.toList.take s.kbd.currIdx.toNat = ed.line := by
      have hr := h.refinesOn.2 hv
      rw [hr.idx]
      exact hr.line
    rw [enter_kbd h.cursors h.lines.kbd hs, hbuf, hline]
    exact ⟨rest, (List.append_cons ..).symm⟩
  | keyFault c st xs => exact h.lines.storesInside c
  | _ => trivial

theorem editor_boot (b : BootIn) (t : Int) : ((boot b).kbState t).kbd.editor = ⟨[], []⟩ := by
  simp only [Kernel.kbState, Kbd.editor]
  split
  · rfl
  · simp only [boot, Kernel.initPIT, Kernel.initTerminals]
    split <;> rfl

/-- **The line discipline refines the editor.** The editor is empty at boot. Start one in any
reachable state with the lines found there: in every state of a run in which no key faults on the
terminal and no `terminal_read` takes its line, the driver has the lines of the reference; every
key stores inside the buffers, and Enter leaves the line of the reference with its newline. -/
theorem editor_refined {b : BootIn} {before : List Event} (h : kernel.run (boot b) before = some s)
    (t : Int) (es : List Event)
    (hg : (editing t).Along (OnlyTypes t) (s, (s.kbState t).kbd.editor) es) :
    ((boot b).kbState t).kbd.editor = ⟨[], []⟩ ∧
    (editing t).Always (RefinesOn t) (s, (s.kbState t).kbd.editor) es ∧
    (editing t).Along (TypesInside t) (s, (s.kbState t).kbd.editor) es := by
  obtain ⟨hc, hl⟩ := linesOk_run h
  have hi : Edits t (s, (s.kbState t).kbd.editor) := ⟨hc, hl, rfl⟩
  have hstep : ∀ p e p', Edits t p → OnlyTypes t p e → (editing t).step p e = some p' →
      Edits t p' := by
    rintro ⟨u, g⟩ e ⟨u', g'⟩ hp he hs
    obtain ⟨hu, rfl⟩ := Lts.withGhost_step.mp hs
    exact edits_step hp he hu
  refine ⟨editor_boot b t, Lts.always_of_inv hstep ?_ hi hg, Lts.along_of_inv hstep ?_ hi hg⟩
  · intro p hp
    exact hp.refinesOn
  · rintro ⟨u, g⟩ e hp -
    exact hp.typesInside

/-- `ls` and Enter on terminal 2 of the small machine, then Up and Backspace. -/
theorem editor_refined_sample :
    ∃ s, kernel.run (boot sampleBoot) sampleLaunches = some s ∧ s.visible = 2 ∧
      ((editing 2).run (s, (s.kbState 2).kbd.editor)
        (sampleKeys [0x26, 0x1F, 0x1C, 0x48, 0x0E])).map (·.2) =
        some ⟨lit ['l'], lit ['l', 's']⟩ ∧
      (editing 2).Always (RefinesOn 2) (s, (s.kbState 2).kbd.editor)
        (sampleKeys [0x26, 0x1F, 0x1C, 0x48, 0x0E]) := by
  have hv : (kernel.run (boot sampleBoot) sampleLaunches).map (fun s => (s.visible,
      ((editing 2).run (s, (s.kbState 2).kbd.editor)
        (sampleKeys [0x26, 0x1F, 0x1C, 0x48, 0x0E])).map (·.2),
      decide ((editing 2).Along (OnlyTypes 2) (s, (s.kbState 2).kbd.editor)
        (sampleKeys [0x26, 0x1F, 0x1C, 0x48, 0x0E])))) =
      some (2, some ⟨lit ['l'], lit ['l', 's']⟩, true) := by decide +kernel
  obtain ⟨s, hs, hv⟩ := Option.map_eq_some_iff.mp hv
  simp only [Prod.mk.injEq] at hv
  obtain ⟨hvis, hrun, hg⟩ := hv
  exact ⟨s, hs, hvis, hrun, (editor_refined hs 2 _ (of_decide_eq_true hg)).2.1⟩

end Run

end Mp3
