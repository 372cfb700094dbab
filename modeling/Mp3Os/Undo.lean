import Mp3Os.Calls

/-!
# Backspacing undoes typing (`putc`, `backspace`)

Each plane of the page, the characters and the attributes, is a window of a tape. `putc` writes at
the cursor and may move the window, `backspace` blanks the place before the cursor, so after as many
`backspace`s as characters the tape is what it was, and the window stands as many rows further
down as have scrolled.
-/

namespace Mp3

namespace Console

/-- `putc` of the byte moves the rows up. -/
def Scrolls (c : Console) (b : UInt8) : Prop :=
  c.screenY = 24 ∧ (isNewline b = true ∨ c.screenX = 79)

instance (c : Console) (b : UInt8) : Decidable (c.Scrolls b) := inferInstanceAs (Decidable (_ ∧ _))

/-- The number of row scrolls while the bytes are printed. -/
def rowScrolls (frame : Nat) : Console → List UInt8 → Nat
  | _, [] => 0
  | c, b :: bs => (if c.Scrolls b then 1 else 0) + rowScrolls frame (c.putc frame b) bs

end Console

section Undo

variable {frame : Nat} {c : Console} {bs : List UInt8} {a : Bool}

open Console (planeByte isNewline rowScrolls)

/-- Characters that are not newlines are written in turn. -/
theorem plane_putcs (h : c.InRange) (hbs : ∀ b ∈ bs, ¬ isNewline b = true) :
    (c.putcs frame bs).plane frame a =
      (c.plane frame a).writes (planeByte a 32) (bs.map (planeByte a)) := by
  induction bs generalizing c with
  | nil => rfl
  | cons b bs ih =>
    have hb : ¬ (b = ch '\n' ∨ b = ch '\r') := by
      simpa [isNewline] using hbs b List.mem_cons_self
    have hd : Console.Draws frame c _ := Console.putc_draws h b
    refine (ih hd.inRange fun b' hb' => hbs b' (List.mem_cons_of_mem b hb')).trans ?_
    rw [Console.plane_putc_char h hb]
    rfl

/-- The rows that scroll are those of the screen. -/
theorem rowScrolls_eq (h : c.InRange) (hbs : ∀ b ∈ bs, ¬ isNewline b = true) :
    rowScrolls frame c bs =
      (c.plane frame a).scrolls (planeByte a 32) (bs.map (planeByte a)) := by
  induction bs generalizing c with
  | nil => rfl
  | cons b bs ih =>
    have hn := hbs b List.mem_cons_self
    have hb : ¬ (b = ch '\n' ∨ b = ch '\r') := by simpa [isNewline] using hn
    have hd : Console.Draws frame c _ := Console.putc_draws h b
    have hiff : c.Scrolls b ↔ (c.plane frame a).x + 1 = 80 ∧ (c.plane frame a).y + 1 = 25 := by
      simp only [Console.Scrolls, Console.plane, hn, false_or, Bool.false_eq_true]
      omega
    rw [rowScrolls, ih hd.inRange fun b' hb' => hbs b' (List.mem_cons_of_mem b hb'),
      Console.plane_putc_char h hb, List.map_cons, Screen.scrolls, if_congr hiff rfl rfl]

/-- The tape of a plane. -/
theorem plane_shows (frame : Nat) (a : Bool) (h : c.InRange) :
    (c.plane frame a).Shows (planeByte a 32) (fun q => if hq : q < 80 * 25 then
      (c.plane frame a).cells ⟨q, hq⟩ else planeByte a 32) 0 c.pos :=
  Screen.shows_self (s := c.plane frame a) h.x h.y

/-- The page after the characters: the window has moved by the rows that scrolled, and it still
shows the start. -/
theorem putcs_window (frame : Nat) (h : c.InRange) (hbs : ∀ b ∈ bs, ¬ isNewline b = true)
    (hlen : bs.length ≤ 127) :
    80 * rowScrolls frame c bs ≤ c.pos ∧
      80 * rowScrolls frame c bs + (c.putcs frame bs).pos = c.pos + bs.length := by
  have hs : (c.plane frame false).Shows _ _ 0 c.pos := plane_shows frame false h
  obtain ⟨T, hw⟩ := hs.writes (bs.map (planeByte false))
  have hw := hw.place
  have hle := hs.scrolls_le (bs.map (planeByte false))
  rw [← plane_putcs h hbs] at hw
  rw [← rowScrolls_eq h hbs, Nat.zero_add, List.length_map] at hw hle
  refine ⟨?_, hw⟩
  rcases hle with h0 | hle
  · rw [h0]
    exact Nat.zero_le _
  · omega

/-- **Backspacing undoes typing.** From any cursor on the screen, `putc` of at most 127 characters
and as many `backspace`s run to their end. With `k` the number of row scrolls, the cursor is `k`
rows above the start; in each plane that was blank from the cursor on, the cells before the start
show what they showed, `k` rows further up, and all others are blank. -/
theorem backspaces_undo_putcs (frame : Nat) (bs : List UInt8) (h : c.InRange)
    (hbs : ∀ b ∈ bs, ¬ isNewline b = true) (hlen : bs.length ≤ 127) :
    ∃ c', draws frame c (bs.map .putc ++ List.replicate bs.length .backspace) = some c' ∧
      c'.screenX = c.screenX ∧ c'.screenY + rowScrolls frame c bs = c.screenY ∧
      ∀ a, (∀ i : Fin (80 * 25), c.pos ≤ i → (c.plane frame a).cells i = planeByte a 32) →
        ∀ i : Fin (80 * 25), (c'.plane frame a).cells i =
          if hi : i.1 + 80 * rowScrolls frame c bs < c.pos then
            (c.plane frame a).cells ⟨i.1 + 80 * rowScrolls frame c bs, hi.trans h.pos_lt⟩
          else planeByte a 32 := by
  have hd : Console.Draws frame c (c.putcs frame bs) := Console.putcs_draws h bs
  obtain ⟨hroom, hpos⟩ := putcs_window frame h hbs hlen
  obtain ⟨c', hr, hplane⟩ := draws_backs frame (n := bs.length) hd.inRange (by omega)
  have hin : c'.InRange := (draws_draws hd.inRange hr).inRange
  have hback := draws_backs_pos hd.inRange hr
  refine ⟨c', ?_, ?_⟩
  · rw [draws_append, draws_putcs]
    exact hr
  -- the cursor is `k` rows above the start
  have hx := h.x
  have hcur := hin.eq_of_pos (x := c.screenX) (y := c.screenY - rowScrolls frame c bs) hx (by
    unfold Console.pos at *
    omega)
  refine ⟨hcur.1, ?_, fun a hblank i => ?_⟩
  · rw [hcur.2]
    unfold Console.pos at hroom
    omega
  · have hT : ∀ q, c.pos ≤ q → (if hq : q < 80 * 25 then (c.plane frame a).cells ⟨q, hq⟩
        else planeByte a 32) = planeByte a 32 := by
      intro q hq
      split
      · exact hblank _ hq
      · rfl
    have hs := (plane_shows frame a h).writes_backs hT (bs.map (planeByte a))
      (by rw [List.length_map]; omega)
    rw [← plane_putcs h hbs, ← rowScrolls_eq h hbs, List.length_map, ← hplane, Nat.zero_add] at hs
    rw [hs.cells i]
    by_cases hi : i.1 + 80 * rowScrolls frame c bs < c.pos
    · rw [dif_pos hi, dif_pos (by have := h.pos_lt; omega)]
      congr 2
      omega
    · rw [dif_neg hi]
      exact hT _ (by omega)

/-- A blank page with the cursor in the last but one cell. -/
def cornerConsole : Console := ⟨fun a => if a % 2 = 0 then 32 else attrib, 78, 24, 1998⟩

/-- Three characters in the corner move the rows up once; the cursor comes back a row higher. -/
theorem backspaces_undo_corner :
    ∃ c', draws 0xB8 cornerConsole
        ((lit ['a', 'b', 'c']).map .putc ++ List.replicate 3 .backspace) = some c' ∧
      c'.screenX = 78 ∧ c'.screenY + 1 = 24 ∧
      ∀ i : Fin (80 * 25), (c'.plane 0xB8 false).cells i = 32 := by
  have hk : rowScrolls 0xB8 cornerConsole (lit ['a', 'b', 'c']) = 1 := by decide
  have hblank : ∀ i, (cornerConsole.plane 0xB8 false).cells i = 32 := fun i =>
    if_pos (by simp only [Bool.toNat_false]; omega)
  have hchars : ∀ b ∈ lit ['a', 'b', 'c'], ¬ isNewline b = true := by
    have hall : (lit ['a', 'b', 'c']).all (fun b => !isNewline b) = true := by decide
    intro b hb
    simpa using List.all_eq_true.mp hall b hb
  obtain ⟨c', hr, hx, hy, hcells⟩ := backspaces_undo_putcs 0xB8 (c := cornerConsole)
    (lit ['a', 'b', 'c']) ⟨by decide, by decide⟩ hchars (by decide)
  rw [hk] at hy
  refine ⟨c', hr, hx, hy, fun i => ?_⟩
  rw [hcells false (fun i _ => hblank i) i]
  split
  · exact hblank _
  · rfl

end Undo

end Mp3
