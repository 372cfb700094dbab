import Mathlib.Data.List.GetD
import Mp3Os.Lib.Screen

/-!
# An unbounded text and the screen that shows its end

A text is a list of rows that only grows: a character is appended to the last row, and a new row
starts when the row is full or at a newline. `Text.view` is the screen that shows the last `h`
rows of it. Printing on a screen that shows a text is appending to the text (`view_push`,
`view_pushes`).
-/

/-- The finished rows and the row that is being written. -/
@[ext] structure Text (α : Type) where
  done : List (List α)
  row : List α

namespace Text

variable {α : Type} {w h : Nat} (blank : α) (isNewline : α → Bool) (t : Text α)

/-- The text without a character. -/
def empty : Text α := ⟨[], []⟩

/-- All rows, the last one included. -/
def rows : List (List α) := t.done ++ [t.row]

/-- A new row starts. -/
def newRow : Text α := ⟨t.rows, []⟩

/-- A character is appended to the last row. -/
def append (c : α) : Text α := { t with row := t.row ++ [c] }

/-- A character is appended; a full row and a newline start a new row. -/
def push (w : Nat) (c : α) : Text α :=
  if isNewline c then t.newRow
  else if t.row.length + 1 = w then (t.append c).newRow else t.append c

/-- Characters are appended in turn. -/
def pushes (w : Nat) (cs : List α) : Text α := cs.foldl (fun t c => t.push isNewline w c) t

/-- The character in column `x` of row `r`; rows are padded with blanks. -/
def char (r x : Nat) : α := (t.rows.getD r []).getD x blank

/-- The number of rows above the last `h` ones. -/
def above (h : Nat) : Nat := t.rows.length - h

/-- The screen that shows the last `h` rows, with the cursor behind the last character. -/
def view (w h : Nat) : Screen α w h where
  cells := fun i => t.char blank (t.above h + i / w) (i % w)
  x := t.row.length
  y := t.done.length - t.above h

variable {blank isNewline t}

@[simp] theorem length_rows : t.rows.length = t.done.length + 1 := by simp [rows]

@[simp] theorem length_done_newRow : t.newRow.done.length = t.done.length + 1 := by simp [newRow]

theorem getD_last {β : Type} (l : List β) (a d : β) : (l ++ [a]).getD l.length d = a := by
  rw [List.getD_append_right _ _ _ _ (Nat.le_refl _), Nat.sub_self]
  rfl

/-- A row that has not started is blank. -/
theorem char_of_le {r : Nat} (hr : t.done.length < r) (x : Nat) : t.char blank r x = blank := by
  have hrow : t.rows.getD r [] = [] := List.getD_eq_default _ _ (by rw [length_rows]; omega)
  rw [char, hrow, List.getD_nil]

/-- The new row is blank, as the place for it was. -/
theorem char_newRow (r x : Nat) : t.newRow.char blank r x = t.char blank r x := by
  by_cases hr : r < t.rows.length
  · simp only [char, newRow]
    rw [rows, List.getD_append _ _ _ _ hr]
  · rw [length_rows] at hr
    rw [char_of_le (t := t) (by omega)]
    by_cases hn : r = t.rows.length
    · subst hn
      have hrow : t.newRow.rows.getD t.rows.length [] = [] := getD_last t.rows [] []
      rw [char, hrow, List.getD_nil]
    · rw [length_rows] at hn
      exact char_of_le (by rw [length_done_newRow]; omega) x

/-- Only the place behind the last character changes. -/
theorem char_append (c : α) (r x : Nat) :
    (t.append c).char blank r x =
      if r = t.done.length ∧ x = t.row.length then c else t.char blank r x := by
  by_cases hr : r = t.done.length
  · subst hr
    simp only [char, append, rows, getD_last, true_and]
    by_cases hx : x < t.row.length
    · rw [List.getD_append _ _ _ _ hx, if_neg (by omega)]
    · rw [List.getD_append_right _ _ _ _ (by omega)]
      by_cases he : x = t.row.length
      · subst he
        rw [if_pos rfl, Nat.sub_self]
        rfl
      · rw [if_neg he, List.getD_eq_default _ _ (by simp; omega), List.getD_eq_default _ _ (by omega)]
  · rw [if_neg (by omega)]
    by_cases hlt : r < t.done.length
    · simp only [char, append, rows]
      rw [List.getD_append _ _ _ _ hlt, List.getD_append _ _ _ _ hlt]
    · rw [char_of_le (t := t) (by omega)]
      exact char_of_le (by simp only [append]; omega) x

/-! ## Printing on the screen -/

/-- The last row of the text is on the screen. -/
theorem y_view (hh : 0 < h) : (t.view blank w h).y = min t.done.length (h - 1) := by
  simp only [view, above, length_rows]
  omega

theorem view_newRow (hh : 0 < h) : (t.view blank w h).newline blank = t.newRow.view blank w h := by
  have hy : (t.view blank w h).y = _ := y_view hh
  unfold Screen.newline
  split
  · -- the text fills the screen: it moves up by a row
    rename_i hlast
    have habove : t.newRow.above h = t.above h + 1 := by
      simp only [above, length_rows, length_done_newRow]
      omega
    ext i
    · have hw : 0 < w := Nat.pos_of_ne_zero fun h0 => by
        subst h0
        exact absurd i.2 (by simp)
      simp only [Screen.scroll, view, habove, char_newRow]
      split
      · rw [Nat.add_div_right _ hw, Nat.add_mod_right]
        congr 1
        omega
      · rename_i hi
        have hrow : h ≤ i.1 / w + 1 := by
          rw [← Nat.add_div_right _ hw]
          exact (Nat.le_div_iff_mul_le hw).mpr (by rw [Nat.mul_comm]; omega)
        refine (char_of_le ?_ _).symm
        simp only [above, length_rows]
        omega
    · rfl
    · simp only [Screen.scroll, y_view hh, length_done_newRow]
      omega
  · rename_i hlast
    have habove : t.newRow.above h = t.above h := by
      simp only [above, length_rows, length_done_newRow]
      omega
    ext i
    · simp only [view, habove, char_newRow]
    · rfl
    · simp only [y_view hh, length_done_newRow]
      omega

/-- The cell under the cursor is the place behind the last character. -/
theorem view_append (hh : 0 < h) (hw : t.row.length < w) (c : α) :
    { (t.view blank w h).put (w * (t.view blank w h).y + (t.view blank w h).x) c with
      x := (t.view blank w h).x + 1 } = (t.append c).view blank w h := by
  have habove : (t.append c).above h = t.above h := by simp only [above, length_rows, append]
  ext i
  · have hcell : i.1 = w * (t.view blank w h).y + (t.view blank w h).x ↔
        t.above h + i.1 / w = t.done.length ∧ i.1 % w = t.row.length := by
      have hle : t.above h ≤ t.done.length := by
        simp only [above, length_rows]
        omega
      have hidx : i.1 / w = t.done.length - t.above h ∧ i.1 % w = t.row.length ↔ _ :=
        Nat.div_mod_unique (by omega)
      simp only [view]
      constructor
      · intro he
        obtain ⟨hdiv, hmod⟩ := hidx.mpr ⟨by omega, hw⟩
        exact ⟨by omega, hmod⟩
      · rintro ⟨hr, hmod⟩
        have heq := (hidx.mp ⟨by omega, hmod⟩).1
        omega
    simp only [Screen.put, hcell]
    simp only [view, habove, char_append]
  · simp [view, append]
  · simp only [view, habove]
    rfl

theorem view_push (hh : 0 < h) (hw : t.row.length < w) (c : α) :
    (t.view blank w h).print blank isNewline c = (t.push isNewline w c).view blank w h := by
  unfold Screen.print push
  split
  · exact view_newRow hh
  · unfold Screen.write
    have happ : _ = (t.append c).view blank w h := view_append hh hw c
    dsimp only
    split
    · rename_i hx
      have hx : t.row.length + 1 = w := hx
      rw [if_pos hx, ← view_newRow hh, ← happ]
      rfl
    · rename_i hx
      have hx : ¬ t.row.length + 1 = w := hx
      rw [if_neg hx, happ]

/-- The last row is never full. -/
theorem length_row_push (hw : t.row.length < w) (c : α) :
    (t.push isNewline w c).row.length < w := by
  unfold push
  split
  · simp only [newRow, List.length_nil]
    omega
  · split
    · simp only [newRow, List.length_nil]
      omega
    · simp only [append, List.length_append, List.length_singleton]
      omega

/-- **A screen that shows the end of a text goes on showing it.** -/
theorem view_pushes (hh : 0 < h) (hw : t.row.length < w) (cs : List α) :
    (t.view blank w h).prints blank isNewline cs = (t.pushes isNewline w cs).view blank w h := by
  induction cs generalizing t with
  | nil => rfl
  | cons c cs ih =>
    have hc : (t.push isNewline w c).row.length < w := length_row_push hw c
    refine Eq.trans ?_ (ih hc)
    rw [← view_push hh hw]
    rfl

end Text
