import Mathlib.Logic.Function.Basic

/-!
# A text screen

`w` columns and `h` rows of characters and a cursor. A character goes into the cell under the
cursor, which moves on; past the last column, or at a newline, it goes to the next row, and past
the last row the rows move up.
-/

/-- The characters row by row, and the cursor. -/
@[ext] structure Screen (α : Type) (w h : Nat) where
  cells : Fin (w * h) → α
  x : Nat
  y : Nat

namespace Screen

variable {α : Type} {w h : Nat} (blank : α) (s : Screen α w h)

/-- The rows move up by one, and the last one is blank. -/
def scroll : Screen α w h :=
  { s with cells := fun i => if hi : i.1 + w < w * h then s.cells ⟨i.1 + w, hi⟩ else blank }

/-- The cursor goes to the start of the next row. -/
def newline : Screen α w h :=
  if s.y + 1 = h then { s.scroll blank with x := 0 } else { s with x := 0, y := s.y + 1 }

/-- A character goes into cell `i`. -/
def put (i : Nat) (c : α) : Screen α w h :=
  { s with cells := fun j => if j.1 = i then c else s.cells j }

/-- A character goes into the cell under the cursor, which moves on. -/
def write (c : α) : Screen α w h :=
  let s' := s.put (w * s.y + s.x) c
  if s.x + 1 = w then s'.newline blank else { s' with x := s.x + 1 }

/-- The cell before the cursor is blanked, and the cursor moves there. -/
def back : Screen α w h :=
  let s' := s.put (w * s.y + s.x - 1) blank
  if s.x = 0 then { s' with x := w - 1, y := s.y - 1 } else { s' with x := s.x - 1 }

/-- A character is printed; some are newlines. -/
def print (isNewline : α → Bool) (c : α) : Screen α w h :=
  if isNewline c then s.newline blank else s.write blank c

/-- Characters are printed in turn. -/
def prints (isNewline : α → Bool) (cs : List α) : Screen α w h :=
  cs.foldl (fun s c => s.print blank isNewline c) s

end Screen
