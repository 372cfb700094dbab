import Mp3Os.Lib.Text
import Mp3Os.Drawing

/-!
# The console as a scrolling text

The reference is an unbounded text of rows of 80 characters (`Text`). From a cleared screen on,
the page shows its last 25 rows and the cursor stands behind its last character, whatever is
printed: `ShowsText` is that refinement, and `console_refines_text` has it after any bytes.
`terminal_write` is `putc` of the bytes of its buffer in turn (`terminalWrite_putc`).
-/

namespace Mp3

/-- The text that bytes give: a row ends when it has 80 characters and at a newline. -/
def consoleText (bs : List UInt8) : Text UInt8 := Text.empty.pushes Console.isNewline 80 bs

/-- The page shows the last 25 rows of a text, padded with spaces, and the cursor is at the end of
its last row. -/
structure ShowsText (t : Text UInt8) (frame : Nat) (c : Console) : Prop where
  cell : ∀ r < 25, ∀ x < 80, c.vram (frame * 4096 + 2 * (80 * r + x)) =
    ((t.rows.drop (t.rows.length - 25)).getD r []).getD x (ch ' ')
  x : c.screenX = t.row.length
  y : c.screenY = min (t.rows.length - 1) 24

section Text

variable {c : Console} {frame : Nat} {t : Text UInt8}

/-- A screen that is the view of a text shows it. -/
theorem showsText_of_view (h : c.screen frame = t.view 32 80 25) : ShowsText t frame c where
  cell := by
    intro r hr x hx
    have hcell := congrArg (fun s : Screen UInt8 80 25 => s.cells ⟨80 * r + x, by omega⟩) h
    have hdiv : (80 * r + x) / 80 = r := by omega
    have hmod : (80 * r + x) % 80 = x := by omega
    simp only [Console.screen, Text.view, Text.char, hdiv, hmod] at hcell
    rw [hcell, List.getD_eq_getElem?_getD (l := List.drop _ _), List.getElem?_drop,
      ← List.getD_eq_getElem?_getD]
    rfl
  x := congrArg Screen.x h
  y := by
    have hy : c.screenY = (t.view 32 80 25).y := congrArg Screen.y h
    rw [hy, Text.y_view (by decide), Text.length_rows]
    rfl

/-- A cleared screen shows the empty text. -/
theorem screen_clearKb : (c.clearKb frame).screen frame = Text.empty.view 32 80 25 := by
  ext i
  · have hi : i.1 < 2000 := i.2
    simp only [Console.screen, Console.clearKb, Console.updateCursor, Console.blank]
    rw [if_pos (by omega), if_pos (by omega)]
    simp only [Text.view, Text.char, Text.rows, Text.empty]
    cases i.1 / 80 <;> simp [Text.above, Text.rows]
  · rfl
  · rfl

theorem screen_clearKb_putcs (bs : List UInt8) :
    ((c.clearKb frame).putcs frame bs).screen frame = (consoleText bs).view 32 80 25 := by
  rw [Console.screen_putcs Console.clearKb_draws.inRange, screen_clearKb,
    Text.view_pushes (by decide) (by decide)]
  rfl

end Text

/-- What `terminal_write` does is `putc` of the bytes of its buffer in turn. -/
theorem terminalWrite_putc (s : Kernel) (mem : Nat → UInt8) (nbytes : Nat) :
    s.terminalWriteFrom mem nbytes =
      ⟨nbytes, mem, { s with
        con := (List.range nbytes).foldl
          (fun c i => c.putc s.paging.videoFrame (mem i)) s.con }⟩ := by
  unfold Kernel.terminalWriteFrom Kernel.terminalWrite Console.putcs
  rw [List.foldl_map, List.length_map, List.length_range, Int.toNat_natCast]

/-- **Console output refines an unbounded scrolling text.** -/
theorem console_refines_text :
    (∀ (c : Console) (frame : Nat) (bs : List UInt8),
      ShowsText (consoleText bs) frame ((c.clearKb frame).putcs frame bs) ∧
        ((c.clearKb frame).putcs frame bs).screenX < 80 ∧
        ((c.clearKb frame).putcs frame bs).screenY < 25) ∧
    ∀ (s : Kernel) (mem : Nat → UInt8) (nbytes : Nat),
      s.terminalWriteFrom mem nbytes =
        ⟨nbytes, mem, { s with
          con := (List.range nbytes).foldl
            (fun c i => c.putc s.paging.videoFrame (mem i)) s.con }⟩ := by
  refine ⟨fun c frame bs => ?_, terminalWrite_putc⟩
  have hclear : Console.Draws frame c _ := Console.clearKb_draws
  have hputcs : Console.Draws frame _ _ := Console.putcs_draws hclear.inRange bs
  exact ⟨showsText_of_view (screen_clearKb_putcs bs), hputcs.inRange.x, hputcs.inRange.y⟩

end Mp3
