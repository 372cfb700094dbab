import Mp3Os.Lib.Screen

/-!
# A screen as a window of a tape

The rows of a screen, written one after the other, are a stretch of an infinite tape that is blank
from some place on. `Shows T k p`: the screen shows the rows of the tape `T` from row `k` on, and
the cursor is at place `p` of the tape. A character written at the cursor goes to place `p`, and
when it fills the last cell the window moves on by a row; nothing else happens to the tape
(`Shows.write`). A newline moves the cursor only, and a step back blanks the place before it.

`Ends T start k text` is the same for a tape that has a text from place `start` on and nothing
behind it: what is written or printed goes behind the text, and a step back takes its last
character. So writing and stepping back restores the tape, whatever the window has done
(`Shows.writes_backs`).
-/

/-- The tape with a text from place `start` on, and blanks behind it. -/
def Tape.text {α : Type} (blank : α) (T : Nat → α) (start : Nat) (text : List α) (q : Nat) : α :=
  if q < start then T q else text.getD (q - start) blank

namespace Screen

variable {α : Type} {w h : Nat} (blank : α)

/-- The screen is the window at row `k` of the tape `T`, with the cursor at place `p`. Below the
window the tape is blank. -/
structure Shows (s : Screen α w h) (T : Nat → α) (k p : Nat) : Prop where
  cells : ∀ i, s.cells i = T (w * k + i)
  rest : ∀ q, w * k + w * h ≤ q → T q = blank
  x : s.x < w
  y : s.y < h
  place : w * k + (w * s.y + s.x) = p

/-- Characters are written in turn. -/
def writes (s : Screen α w h) (cs : List α) : Screen α w h := cs.foldl (fun s c => s.write blank c) s

/-- The cursor steps back `n` times. -/
def backs (s : Screen α w h) : Nat → Screen α w h
  | 0 => s
  | n + 1 => (s.back blank).backs n

/-- How often the rows move up while characters are written. -/
def scrolls (s : Screen α w h) : List α → Nat
  | [] => 0
  | c :: cs => (if s.x + 1 = w ∧ s.y + 1 = h then 1 else 0) + (s.write blank c).scrolls cs

section Shows

variable {blank} {s : Screen α w h} {T : Nat → α} {k p : Nat}

/-- A screen shows its own cells. -/
theorem shows_self (hx : s.x < w) (hy : s.y < h) :
    s.Shows blank (fun q => if hq : q < w * h then s.cells ⟨q, hq⟩ else blank) 0 (w * s.y + s.x) := by
  refine ⟨fun i => ?_, fun q hq => ?_, hx, hy, by simp⟩
  · simp
  · rw [dif_neg (by omega)]

/-- The cursor is in the window. -/
theorem Shows.place_lt (hs : s.Shows blank T k p) : w * k ≤ p ∧ p < w * k + w * h := by
  have hrow : w * (s.y + 1) ≤ w * h := Nat.mul_le_mul_left w hs.y
  have hp := hs.place
  have hx := hs.x
  rw [Nat.mul_succ] at hrow
  omega

/-- The tape stays blank below the window. -/
theorem Shows.rest_put (hs : s.Shows blank T k p) (c : α) {q : Nat} (hq : w * k + w * h ≤ q) :
    (if q = p then c else T q) = blank := by
  have hp := hs.place_lt.2
  rw [if_neg (by omega)]
  exact hs.rest q hq

/-- A character under the cursor. -/
theorem Shows.put (hs : s.Shows blank T k p) (c : α) :
    (s.put (w * s.y + s.x) c).Shows blank (fun r => if r = p then c else T r) k p := by
  have hp := hs.place
  refine ⟨fun i => ?_, fun q hq => hs.rest_put c hq, hs.x, hs.y, hp⟩
  simp only [Screen.put, hs.cells]
  by_cases hi : i.1 = w * s.y + s.x
  · rw [if_pos hi, if_pos (by omega)]
  · rw [if_neg hi, if_neg (by omega)]

/-- A newline moves the cursor only; in the last row the window moves on. -/
theorem Shows.newline (hs : s.Shows blank T k p) :
    (s.newline blank).Shows blank T (k + if s.y + 1 = h then 1 else 0) (p + (w - s.x)) := by
  have hp := hs.place
  have hx := hs.x
  have hy := hs.y
  unfold Screen.newline
  by_cases hrow : s.y + 1 = h
  · -- the window moves on
    have hk : w * (k + 1) = w * k + w := Nat.mul_succ w k
    rw [if_pos hrow, if_pos hrow]
    refine ⟨fun i => ?_, fun q hq => hs.rest q (by omega), by simp only; omega, hy, ?_⟩
    · simp only [scroll]
      by_cases hi : i.1 + w < w * h
      · rw [dif_pos hi, hs.cells, show w * (k + 1) + i.1 = w * k + (i.1 + w) by omega]
      · rw [dif_neg hi]
        exact (hs.rest _ (by omega)).symm
    · show w * (k + 1) + (w * s.y + 0) = p + (w - s.x)
      omega
  · have hk : w * (s.y + 1) = w * s.y + w := Nat.mul_succ w s.y
    rw [if_neg hrow, if_neg hrow]
    refine ⟨hs.cells, hs.rest, by simp only; omega, by simp only; omega, ?_⟩
    show w * k + (w * (s.y + 1) + 0) = p + (w - s.x)
    omega

/-- A character goes to the place of the cursor; in the last cell the window moves on. -/
theorem Shows.write (hs : s.Shows blank T k p) (c : α) :
    (s.write blank c).Shows blank (fun r => if r = p then c else T r)
      (k + if s.x + 1 = w ∧ s.y + 1 = h then 1 else 0) (p + 1) := by
  have hput := hs.put c
  unfold Screen.write
  by_cases hcol : s.x + 1 = w
  · have hn := hput.newline
    have hp : w - (s.put (w * s.y + s.x) c).x = 1 := by
      show w - s.x = 1
      omega
    rw [hp] at hn
    simp only [hcol, true_and]
    exact hn
  · have hx := hs.x
    have hp := hs.place
    simp only [if_neg hcol]
    rw [if_neg (fun hc => hcol hc.1)]
    refine ⟨hput.cells, hput.rest, by simp only; omega, hs.y, ?_⟩
    show w * k + (w * s.y + (s.x + 1)) = p + 1
    omega

/-- A step back blanks the place before the cursor. -/
theorem Shows.back (hs : s.Shows blank T k p) (hk : w * k < p) :
    (s.back blank).Shows blank (fun r => if r = p - 1 then blank else T r) k (p - 1) := by
  have hp := hs.place
  have hx := hs.x
  have hy := hs.y
  have hlt := hs.place_lt.2
  have hcell : ∀ i, (s.put (w * s.y + s.x - 1) blank).cells i =
      if w * k + i = p - 1 then blank else T (w * k + i) := by
    intro i
    simp only [Screen.put, hs.cells]
    by_cases hi : i.1 = w * s.y + s.x - 1
    · rw [if_pos hi, if_pos (by omega)]
    · rw [if_neg hi, if_neg (by omega)]
  have hrest : ∀ q, w * k + w * h ≤ q → (if q = p - 1 then blank else T q) = blank := by
    intro q hq
    rw [hs.rest q hq, ite_self]
  unfold Screen.back
  by_cases hcol : s.x = 0
  · simp only [if_pos hcol]
    obtain ⟨y, hy'⟩ : ∃ y, s.y = y + 1 := by
      refine ⟨s.y - 1, ?_⟩
      have : s.y ≠ 0 := by
        intro h0
        rw [h0, Nat.mul_zero] at hp
        omega
      omega
    have hrow : w * s.y = w * y + w := by rw [hy', Nat.mul_succ]
    refine ⟨hcell, hrest, by simp only; omega, by simp only; omega, ?_⟩
    show w * k + (w * (s.y - 1) + (w - 1)) = p - 1
    rw [show s.y - 1 = y by omega]
    omega
  · simp only [if_neg hcol]
    refine ⟨hcell, hrest, by simp only; omega, hy, ?_⟩
    show w * k + (w * s.y + (s.x - 1)) = p - 1
    omega

/-- Characters move the cursor on, and the window by the rows that scroll. -/
theorem Shows.writes (hs : s.Shows blank T k p) (cs : List α) :
    ∃ T', (s.writes blank cs).Shows blank T' (k + s.scrolls blank cs) (p + cs.length) := by
  induction cs generalizing s T k p with
  | nil => exact ⟨T, hs⟩
  | cons c cs ih =>
    obtain ⟨T', hn⟩ := ih (hs.write c)
    rw [Nat.add_assoc, show p + 1 + cs.length = p + (c :: cs).length by simp; omega] at hn
    exact ⟨T', hn⟩

/-- The rows move up only when the cursor passes the last cell. -/
theorem Shows.scrolls_le (hs : s.Shows blank T k p) (cs : List α) :
    s.scrolls blank cs = 0 ∨ w * (k + s.scrolls blank cs) + w * h ≤ p + cs.length + w := by
  induction cs generalizing s T k p with
  | nil => exact .inl rfl
  | cons c cs ih =>
    have hp := hs.place
    have hn := ih (hs.write c)
    simp only [scrolls, List.length_cons]
    by_cases hlast : s.x + 1 = w ∧ s.y + 1 = h
    · simp only [if_pos hlast] at hn ⊢
      refine .inr ?_
      have hrow : w * h = w * s.y + w :=
        (congrArg (w * ·) hlast.2.symm).trans (Nat.mul_succ w s.y)
      have hk : w * (k + 1) = w * k + w := Nat.mul_succ w k
      rcases hn with h0 | hn
      · rw [h0, Nat.add_zero]
        omega
      · rw [← Nat.add_assoc]
        omega
    · simp only [if_neg hlast, Nat.zero_add, Nat.add_zero] at hn ⊢
      refine hn.imp_right fun hn => ?_
      omega

end Shows

/-! ## A text at the end of the tape -/

variable (isNewline : α → Bool)

/-- The tape has the text from place `start` on and blanks behind it, where the cursor is. -/
def Ends (s : Screen α w h) (T : Nat → α) (start k : Nat) (text : List α) : Prop :=
  s.Shows blank (Tape.text blank T start text) k (start + text.length)

/-- The cells that printing from column `x` covers: a newline covers the rest of its row. -/
def lay (w : Nat) : Nat → List α → List α
  | _, [] => []
  | x, c :: cs =>
    if isNewline c then List.replicate (w - x) blank ++ lay w 0 cs
    else c :: lay w (if x + 1 = w then 0 else x + 1) cs

section Ends

variable {blank isNewline} {s : Screen α w h} {T : Nat → α} {start k : Nat} {text : List α}

/-- A screen that has the text and blanks from some cell on. -/
theorem ends_self (hx : s.x < w) (hy : s.y < h) (hcur : w * s.y + s.x = start + text.length)
    (hcells : ∀ i : Fin (w * h), start ≤ i → s.cells i = text.getD (i - start) blank) :
    ∃ T, s.Ends blank T start 0 text := by
  have hs : s.Shows blank _ 0 _ := shows_self hx hy
  have hlt := hs.place_lt.2
  rw [hcur] at hs hlt
  refine ⟨fun q => if hq : q < w * h then s.cells ⟨q, hq⟩ else blank, ?_⟩
  have ht : Tape.text blank (fun q => if hq : q < w * h then s.cells ⟨q, hq⟩ else blank) start text =
      fun q => if hq : q < w * h then s.cells ⟨q, hq⟩ else blank := by
    funext q
    unfold Tape.text
    grind
  rw [Ends, ht]
  exact hs

theorem Tape.text_nil (hT : ∀ q, start ≤ q → T q = blank) : Tape.text blank T start [] = T := by
  funext q
  unfold Tape.text
  grind

/-- Before anything is written there is no text. -/
theorem Shows.ends (hs : s.Shows blank T k start) (hT : ∀ q, start ≤ q → T q = blank) :
    s.Ends blank T start k [] := by
  rw [Ends, Tape.text_nil hT]
  exact hs

theorem Ends.cells (hs : s.Ends blank T start k text) {i : Fin (w * h)} (hi : start ≤ i) :
    s.cells i = text.getD (w * k + (i - start)) blank := by
  rw [Shows.cells hs, Tape.text, if_neg (by omega), Nat.add_sub_assoc hi]

/-- A character goes behind the text. -/
theorem Ends.write (hs : s.Ends blank T start k text) (c : α) :
    (s.write blank c).Ends blank T start (k + if s.x + 1 = w ∧ s.y + 1 = h then 1 else 0)
      (text ++ [c]) := by
  have ht : Tape.text blank T start (text ++ [c]) =
      fun r => if r = start + text.length then c else Tape.text blank T start text r := by
    funext q
    unfold Tape.text
    grind
  rw [Ends, ht, List.length_append, List.length_singleton, ← Nat.add_assoc]
  exact Shows.write hs c

/-- A step back takes the last character of the text. -/
theorem Ends.back {c : α} (hs : s.Ends blank T start k (text ++ [c])) (hk : w * k ≤ start) :
    (s.back blank).Ends blank T start k text := by
  rw [Ends, List.length_append, List.length_singleton, ← Nat.add_assoc] at hs
  have hb := hs.back (by omega)
  have ht : Tape.text blank T start text = fun r => if r = start + text.length + 1 - 1 then blank
      else Tape.text blank T start (text ++ [c]) r := by
    funext q
    unfold Tape.text
    grind
  rw [Ends, ht]
  exact hb

theorem Ends.backs (hs : s.Ends blank T start k text) (hk : w * k ≤ start) {n : Nat}
    (hn : n ≤ text.length) :
    (s.backs blank n).Ends blank T start k (text.take (text.length - n)) := by
  induction n generalizing s text with
  | zero =>
    rw [Nat.sub_zero, List.take_length]
    exact hs
  | succ n ih =>
    have hne : text ≠ [] := by
      rintro rfl
      simp at hn
    rw [← List.dropLast_concat_getLast hne] at hs
    have hb := ih (hs.back hk) (by simp; omega)
    rw [List.length_dropLast, List.dropLast_eq_take, List.take_take] at hb
    rw [show min (text.length - 1 - n) (text.length - 1) = text.length - (n + 1) by omega] at hb
    exact hb

/-- A newline covers the rest of its row. -/
theorem Ends.newline (hs : s.Ends blank T start k text) :
    (s.newline blank).Ends blank T start (k + if s.y + 1 = h then 1 else 0)
      (text ++ List.replicate (w - s.x) blank) := by
  have ht : Tape.text blank T start (text ++ List.replicate (w - s.x) blank) =
      Tape.text blank T start text := by
    funext q
    unfold Tape.text
    grind
  rw [Ends, ht, List.length_append, List.length_replicate, ← Nat.add_assoc]
  exact Shows.newline hs

/-- Characters go behind the text, and the window moves on by the rows that scroll. -/
theorem Ends.writes (hs : s.Ends blank T start k text) (cs : List α) :
    (s.writes blank cs).Ends blank T start (k + s.scrolls blank cs) (text ++ cs) := by
  induction cs generalizing s k text with
  | nil =>
    rw [List.append_nil]
    exact hs
  | cons c cs ih =>
    have hn := ih (hs.write c)
    rw [Nat.add_assoc, List.append_assoc] at hn
    exact hn

/-- **Stepping back undoes writing.** From a cursor after which the tape is blank, as many steps back
as characters were written restore the tape, seen through the window where the writing left it. -/
theorem Shows.writes_backs (hs : s.Shows blank T k start) (hT : ∀ q, start ≤ q → T q = blank)
    (cs : List α) (hlen : cs.length + w ≤ w * h) :
    ((s.writes blank cs).backs blank cs.length).Shows blank T (k + s.scrolls blank cs) start := by
  have hroom : w * (k + s.scrolls blank cs) ≤ start := by
    have hk := hs.place_lt.1
    rcases hs.scrolls_le cs with h0 | h1
    · rw [h0, Nat.add_zero]
      exact hk
    · omega
  have hb := ((hs.ends hT).writes cs).backs hroom (n := cs.length) (Nat.le_refl _)
  rw [List.nil_append, Nat.sub_self, List.take_zero, Ends, Tape.text_nil hT] at hb
  exact hb

/-- Without newlines the characters cover themselves. -/
theorem lay_of_no_newline {cs : List α} (hcs : ∀ c ∈ cs, ¬ isNewline c = true) (x : Nat) :
    lay blank isNewline w x cs = cs := by
  induction cs generalizing x with
  | nil => rfl
  | cons c cs ih =>
    rw [lay, if_neg (hcs c List.mem_cons_self), ih fun b hb => hcs b (List.mem_cons_of_mem c hb)]

theorem write_y (c : α) : (s.write blank c).y =
    if s.x + 1 = w ∧ s.y + 1 ≠ h then s.y + 1 else s.y := by
  unfold Screen.write Screen.newline
  dsimp only [Screen.put, scroll]
  grind

theorem newline_y : (s.newline blank).y = if s.y + 1 = h then s.y else s.y + 1 := by
  unfold Screen.newline scroll
  grind

theorem write_x (c : α) : (s.write blank c).x = if s.x + 1 = w then 0 else s.x + 1 := by
  unfold Screen.write Screen.newline
  dsimp only [Screen.put, scroll]
  grind

theorem newline_x : (s.newline blank).x = 0 := by
  unfold Screen.newline scroll
  grind

/-- Printed characters go behind the text. The window moves on only while the cursor is in the
last row. -/
theorem Ends.prints (isNewline : α → Bool) (hs : s.Ends blank T start k text) (cs : List α) :
    ∃ k', (s.prints blank isNewline cs).Ends blank T start k'
        (text ++ lay blank isNewline w s.x cs) ∧
      s.y ≤ (s.prints blank isNewline cs).y ∧
      (k' = k ∨ (s.prints blank isNewline cs).y + 1 = h) := by
  induction cs generalizing s k text with
  | nil =>
    refine ⟨k, ?_, Nat.le_refl _, .inl rfl⟩
    rw [lay, List.append_nil]
    exact hs
  | cons c cs ih =>
    by_cases hn : isNewline c
    · obtain ⟨k', he, hy, hk⟩ := ih hs.newline
      rw [newline_x, List.append_assoc] at he
      rw [newline_y] at hy
      have hp : s.prints blank isNewline (c :: cs) =
          (s.newline blank).prints blank isNewline cs := by
        simp [Screen.prints, Screen.print, hn]
      rw [hp, lay, if_pos hn]
      have hlt := Shows.y he
      exact ⟨k', he, by grind, by grind⟩
    · obtain ⟨k', he, hy, hk⟩ := ih (hs.write c)
      rw [write_x, List.append_assoc] at he
      rw [write_y] at hy
      have hp : s.prints blank isNewline (c :: cs) =
          (s.write blank c).prints blank isNewline cs := by
        simp [Screen.prints, Screen.print, hn]
      rw [hp, lay, if_neg hn]
      have hlt := Shows.y he
      exact ⟨k', he, by grind, by grind⟩

/-- The screen has a given text from `start` on, and the cursor behind it, exactly if the text of
the tape is that text behind the rows that the window has left. -/
theorem Ends.suffix_iff (hs : s.Ends blank T start k text) (goal : List α) (n : Nat) :
    (w * s.y + s.x = start + goal.length ∧ ∀ i : Fin (w * h), start ≤ i →
      i < start + max goal.length n → s.cells i = goal.getD (i - start) blank) ↔
    text.length = w * k + goal.length ∧ goal <:+ text := by
  have hp := Shows.place hs
  constructor
  · rintro ⟨hcur, hcells⟩
    have hlen : text.length = w * k + goal.length := by omega
    refine ⟨hlen, ?_⟩
    have hdrop : text.drop (w * k) = goal := by
      apply List.ext_getElem
      · rw [List.length_drop]
        omega
      · intro i hi hi'
        have hlt : start + i < w * h := by
          have := (Shows.place_lt hs).2
          omega
        have hc := hcells ⟨start + i, hlt⟩ (Nat.le_add_right start i) (by simp only; omega)
        rw [hs.cells (Nat.le_add_right start i)] at hc
        simp only [Nat.add_sub_cancel_left] at hc
        rw [List.getElem_drop]
        grind
    rw [← hdrop]
    exact List.drop_suffix ..
  · rintro ⟨hlen, v, rfl⟩
    rw [List.length_append] at hlen hp
    refine ⟨by omega, fun i hi _ => ?_⟩
    rw [hs.cells hi, show w * k = v.length by omega]
    grind

end Ends

end Screen
