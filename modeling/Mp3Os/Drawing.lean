import Mp3Os.Lib.Screen
import Mp3Os.Io

/-!
# Drawing on a page

Every function of `lib.c` that draws keeps the cursor on the screen and writes only the page that
the window shows (`Console.Draws`); `putc` does there what a text screen of 80 columns and 25
rows does (`screen_putcs`).

`CursorsOk` is the invariant for the cursors of all terminals: `cursorsOk_step` has it for every
event. The 8-bit fields in which `terminal_t` keeps a cursor lose nothing of it.
-/

namespace Mp3

namespace Console

variable {c c' c'' : Console} {frame : Nat}

/-- The cursor is on the screen. -/
structure InRange (c : Console) : Prop where
  x : c.screenX < 80
  y : c.screenY < 25

/-- The console draws on one page: the cursor stays on the screen, and the other pages stay as
they are. -/
structure Draws (frame : Nat) (c c' : Console) : Prop where
  inRange : c'.InRange
  off : ∀ a, a / 4096 ≠ frame → c'.vram a = c.vram a

theorem Draws.refl (h : c.InRange) : Draws frame c c := ⟨h, fun _ _ => rfl⟩

theorem Draws.trans (h : Draws frame c c') (h' : Draws frame c' c'') : Draws frame c c'' :=
  ⟨h'.inRange, fun a ha => (h'.off a ha).trans (h.off a ha)⟩

theorem putCell_off {i : Nat} (hi : i < 2000) (b : UInt8) {a : Nat} (ha : a / 4096 ≠ frame) :
    (c.putCell frame i b).vram a = c.vram a := by
  simp only [putCell]
  rw [if_neg (by omega), if_neg (by omega)]

theorem scroll_off {a : Nat} (ha : a / 4096 ≠ frame) : (c.scroll frame).vram a = c.vram a := by
  simp only [scroll]
  rw [if_neg (by omega), if_neg (by omega)]

theorem blank_off {a : Nat} (ha : a / 4096 ≠ frame) : (c.blank frame).vram a = c.vram a := by
  simp only [blank]
  rw [if_neg (by omega)]

theorem newline_draws (hx : c.screenY < 25) : Draws frame c (c.newline frame) := by
  unfold newline
  split
  · exact ⟨⟨Nat.zero_lt_succ _, hx⟩, fun a ha => scroll_off ha⟩
  · exact ⟨⟨Nat.zero_lt_succ _, by simp only; omega⟩, fun _ _ => rfl⟩

theorem putc_draws (h : c.InRange) (b : UInt8) : Draws frame c (c.putc frame b) := by
  have hx := h.x
  have hy := h.y
  have hcell : 80 * c.screenY + c.screenX < 2000 := by omega
  unfold putc
  split
  · have hn : Draws frame c _ := newline_draws hy
    exact ⟨⟨hn.inRange.x, hn.inRange.y⟩, hn.off⟩
  · split
    · have hn : Draws frame { c.putCell frame (80 * c.screenY + c.screenX) b with
          screenX := c.screenX + 1 } _ := newline_draws hy
      exact ⟨⟨hn.inRange.x, hn.inRange.y⟩, fun a ha => (hn.off a ha).trans (putCell_off hcell b ha)⟩
    · exact ⟨⟨Nat.mod_lt _ (by decide), Nat.mod_lt _ (by decide)⟩,
        fun a ha => putCell_off hcell b ha⟩

theorem putcs_draws (h : c.InRange) (bs : List UInt8) : Draws frame c (c.putcs frame bs) := by
  induction bs generalizing c with
  | nil => exact .refl h
  | cons b bs ih =>
    have hb : Draws frame c _ := putc_draws h b
    exact hb.trans (ih hb.inRange)

theorem clearKb_draws : Draws frame c (c.clearKb frame) :=
  ⟨⟨Nat.zero_lt_succ 79, Nat.zero_lt_succ 24⟩, fun _ ha => blank_off ha⟩

theorem clear_draws : Draws frame c (c.clear frame) :=
  ⟨⟨Nat.zero_lt_succ 79, Nat.zero_lt_succ 24⟩,
    fun _ ha => (blank_off (c := c.blank frame) ha).trans (blank_off ha)⟩

theorem backspace_draws (h : c.InRange) (hb : c.backspace frame = some c') : Draws frame c c' := by
  have hx := h.x
  have hy := h.y
  unfold backspace at hb
  split at hb
  · cases hb
  · have hoff : ∀ a, a / 4096 ≠ frame →
        (c.putCell frame (80 * c.screenY + c.screenX - 1) 32).vram a = c.vram a :=
      fun a ha => putCell_off (by omega) 32 ha
    dsimp only at hb
    split at hb
    · cases hb
      exact ⟨⟨by simp only [updateCursor]; omega, hy⟩, hoff⟩
    · cases hb
      exact ⟨⟨by simp only [updateCursor]; omega, by simp only [updateCursor]; omega⟩, hoff⟩

theorem eraseLine_draws (h : c.InRange) (saveX saveY fuel : Nat) :
    Draws frame c (eraseLine frame saveX saveY fuel c).1 := by
  induction fuel generalizing c with
  | zero => exact .refl h
  | succ fuel ih =>
    unfold eraseLine
    split
    · split
      · exact .refl h
      · rename_i c' hb
        have hd := backspace_draws h hb
        exact hd.trans (ih hd.inRange)
    · exact .refl h

theorem copyPage_on {dst src off : Nat} (h : off < 4096) :
    (c.copyPage dst src).vram (dst * 4096 + off) = c.vram (src * 4096 + off) := by
  simp only [copyPage]
  rw [if_pos (by omega), show dst * 4096 + off - dst * 4096 = off by omega]

theorem copyPage_off {dst src a : Nat} (h : a / 4096 ≠ dst) :
    (c.copyPage dst src).vram a = c.vram a := by
  simp only [copyPage]
  rw [if_neg (by omega)]

theorem testInterrupts_cells (frame n page : Nat) (i : Fin (80 * 25)) :
    (c.testInterrupts frame n).vram (page * 4096 + 2 * i) = c.vram (page * 4096 + 2 * i) := by
  have hi : i.1 < 2000 := i.2
  simp only [testInterrupts]
  rw [if_neg (by omega)]

/-! ## The page as a text screen -/

/-- The characters of a page and the cursor. -/
def screen (c : Console) (frame : Nat) : Screen UInt8 80 25 where
  cells := fun i => c.vram (frame * 4096 + 2 * i)
  x := c.screenX
  y := c.screenY

/-- The bytes that `putc` takes for newlines. -/
def isNewline (b : UInt8) : Bool := b = ch '\n' || b = ch '\r'

/-- The characters of a page, or its attributes. -/
def plane (c : Console) (frame : Nat) (attr : Bool) : Screen UInt8 80 25 where
  cells := fun i => c.vram (frame * 4096 + 2 * i + attr.toNat)
  x := c.screenX
  y := c.screenY

/-- What a character stores in a plane. -/
def planeByte (attr : Bool) (b : UInt8) : UInt8 := if attr then attrib else b

section Planes

variable {a : Bool}

theorem plane_putCell (i : Nat) (b : UInt8) :
    (c.putCell frame i b).plane frame a = (c.plane frame a).put i (planeByte a b) := by
  ext j
  · simp only [plane, putCell, Screen.put, planeByte]
    by_cases hj : j.1 = i
    · rw [if_pos hj]
      cases a with
      | false => rw [if_pos (by simp only [Bool.toNat_false]; omega), if_neg (by decide)]
      | true =>
        rw [if_neg (by simp only [Bool.toNat_true]; omega),
          if_pos (by simp only [Bool.toNat_true]; omega), if_pos rfl]
    · have hlt := a.toNat_lt
      rw [if_neg (by omega), if_neg (by omega), if_neg hj]
  · rfl
  · rfl

theorem plane_scroll :
    (c.scroll frame).plane frame a = (c.plane frame a).scroll (planeByte a 32) := by
  ext j
  · have hj : j.1 < 2000 := j.2
    have hlt := a.toNat_lt
    simp only [plane, scroll, Screen.scroll, planeByte]
    by_cases hr : j.1 + 80 < 80 * 25
    · rw [if_pos (by omega), dif_pos hr, show frame * 4096 + 2 * j.1 + a.toNat + 160 =
        frame * 4096 + 2 * (j.1 + 80) + a.toNat by omega]
    · rw [if_neg (by omega), if_pos (by omega), dif_neg hr]
      cases a with
      | false => rw [if_pos (by simp only [Bool.toNat_false]; omega), if_neg (by decide)]
      | true => rw [if_neg (by simp only [Bool.toNat_true]; omega), if_pos rfl]
  · rfl
  · rfl

theorem plane_newline :
    (c.newline frame).plane frame a = (c.plane frame a).newline (planeByte a 32) := by
  unfold newline Screen.newline
  by_cases hy : c.screenY = 24
  · have hlast : (c.plane frame a).y + 1 = 25 := by simp only [plane]; omega
    rw [if_pos hy, if_pos hlast, ← plane_scroll]
    rfl
  · have hlast : ¬ (c.plane frame a).y + 1 = 25 := by simp only [plane]; omega
    rw [if_neg hy, if_neg hlast]
    rfl

theorem newline_screenX (x : Nat) : { c with screenX := x }.newline frame = c.newline frame := rfl

theorem plane_updateCursor : c.updateCursor.plane frame a = c.plane frame a := rfl

/-- `putc` of a character that is not a newline. -/
theorem plane_putc_char (h : c.InRange) {b : UInt8} (hb : ¬ (b = ch '\n' ∨ b = ch '\r')) :
    (c.putc frame b).plane frame a =
      (c.plane frame a).write (planeByte a 32) (planeByte a b) := by
  have hx := h.x
  have hy := h.y
  have hcell : _ = (c.plane frame a).put _ (planeByte a b) :=
    plane_putCell (80 * c.screenY + c.screenX) b
  unfold putc Screen.write
  simp only [show (c.plane frame a).x = c.screenX from rfl,
    show (c.plane frame a).y = c.screenY from rfl, ← hcell]
  rw [if_neg hb]
  by_cases hlast : c.screenY = 24 ∧ c.screenX = 79
  · -- the last cell: the rows move up
    have hcol : c.screenX + 1 = 80 := by omega
    rw [if_pos hlast, if_pos hcol, ← plane_newline, newline_screenX, plane_updateCursor,
      plane_updateCursor]
  rw [if_neg hlast]
  by_cases hcol : c.screenX + 1 = 80
  · -- the last column of another row
    have hrow : ¬ (c.putCell frame (80 * c.screenY + c.screenX) b).screenY = 24 := by
      simp only [putCell]
      omega
    rw [if_pos hcol, ← plane_newline, newline, if_neg hrow]
    ext j
    · rfl
    · simp only [plane, updateCursor]
      omega
    · simp only [plane, updateCursor, putCell]
      omega
  · rw [if_neg hcol]
    ext j
    · rfl
    · simp only [plane, updateCursor]
      omega
    · simp only [plane, updateCursor, putCell]
      omega

/-- `backspace` puts a space before the cursor, which moves there. -/
theorem plane_backspace (hb : c.backspace frame = some c') :
    c'.plane frame a = (c.plane frame a).back (planeByte a 32) := by
  have hcell : _ = (c.plane frame a).put _ (planeByte a 32) :=
    plane_putCell (80 * c.screenY + c.screenX - 1) 32
  unfold backspace at hb
  unfold Screen.back
  simp only [show (c.plane frame a).x = c.screenX from rfl,
    show (c.plane frame a).y = c.screenY from rfl, ← hcell]
  split at hb
  · cases hb
  · split at hb
    · rename_i hx
      cases hb
      rw [if_neg hx]
      rfl
    · rename_i hx
      cases hb
      rw [if_pos (not_not.mp hx)]
      rfl

end Planes

theorem plane_false : c.plane frame false = c.screen frame := by
  simp only [plane, screen, Bool.toNat_false, Nat.add_zero]

/-- `putc` prints a character. -/
theorem screen_putc (h : c.InRange) (b : UInt8) :
    (c.putc frame b).screen frame = (c.screen frame).print 32 isNewline b := by
  by_cases hb : b = ch '\n' ∨ b = ch '\r'
  · have hnl : isNewline b = true := by simpa [isNewline] using hb
    have hline : (c.newline frame).plane frame false = (c.plane frame false).newline 32 :=
      plane_newline
    rw [plane_false, plane_false] at hline
    rw [Screen.print, if_pos hnl, putc, if_pos hb]
    exact hline
  · have hnl : ¬ isNewline b = true := by simpa [isNewline] using hb
    have hchar : (c.putc frame b).plane frame false = (c.plane frame false).write 32 b :=
      plane_putc_char h hb
    rw [plane_false, plane_false] at hchar
    rw [Screen.print, if_neg hnl]
    exact hchar

/-- **`putc` of bytes in turn prints them.** -/
theorem screen_putcs (h : c.InRange) (bs : List UInt8) :
    (c.putcs frame bs).screen frame = (c.screen frame).prints 32 isNewline bs := by
  induction bs generalizing c with
  | nil => rfl
  | cons b bs ih =>
    have hb : Draws frame c _ := putc_draws h b
    refine (ih hb.inRange).trans ?_
    rw [screen_putc h]
    rfl

end Console

end Mp3
