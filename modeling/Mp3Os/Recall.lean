import Mp3Os.Editor
import Mp3Os.Erase

/-!
# What the Up key shows

The erase loop leaves a part of the line that was typed (`keptChars`): all of a line in one row, and
the rows of a wrapped line but the last, for the loop stops in the saved column of any row. Behind
it `printf` prints the previous command, as a format. So the screen has the command where the line
stood only if the two together are the command (`UpFits`).
-/

namespace Mp3

open Console (isNewline)

/-- How many characters of a line of `n` the erase loop leaves. The line starts in column `saveX`
and goes on for `row` rows. -/
def keptChars (saveX n : Nat) : Nat :=
  let row := (saveX + n) / 80
  if row = 0 then n
  else if saveX ≤ (saveX + n) % 80 then 80 * row
  else if row = 1 then 79 - saveX
  else 80 * (row - 1)

namespace Kernel

variable (s : Kernel)

/-- The cell of the saved position. -/
def lineStart : Nat := cellOf (s.kbd.saveX, s.kbd.saveY)

/-- The previous command. -/
def previous : List UInt8 := s.kbd.editor.previous

/-- The line was typed since the position was saved: from there on the visible screen has the line
and nothing else, and the cursor is behind it. -/
structure TypedSince (line : List UInt8) : Prop where
  cursor : cellOf (s.cursorOf s.visible) = s.lineStart + line.length
  cells : ∀ i : Fin (80 * 25), s.lineStart ≤ i →
    s.cellsOf s.visible i = line.getD (i - s.lineStart) 32

/-- The cells from the saved position on, one by one. -/
theorem typedSince_iff {line : List UInt8} : s.TypedSince line ↔
    cellOf (s.cursorOf s.visible) = s.lineStart + line.length ∧
      ∀ j (hj : j < 80 * 25 - s.lineStart),
        s.cellsOf s.visible ⟨s.lineStart + j, by omega⟩ = line.getD j 32 := by
  constructor
  · intro h
    refine ⟨h.cursor, fun j hj => ?_⟩
    rw [h.cells _ (Nat.le_add_right s.lineStart j), Nat.add_sub_cancel_left]
  · rintro ⟨hcur, hcells⟩
    refine ⟨hcur, fun i hi => ?_⟩
    have hj := hcells (i - s.lineStart) (by omega)
    simp only [Nat.add_sub_cancel' hi] at hj
    exact hj

instance (line : List UInt8) : Decidable (s.TypedSince line) :=
  decidable_of_iff _ s.typedSince_iff.symm

/-- Up returns, the screen has the previous command from the saved position on and blanks in the
other cells of the line, and the cursor is behind the command. -/
def UpShows (line : List UInt8) (st : Stack) : Prop :=
  ∃ s', s.keyboardHandler 0x48 st = .ret s' ∧
    cellOf (s'.cursorOf s'.visible) = s.lineStart + s.previous.length ∧
    ∀ i : Fin (80 * 25), s.lineStart ≤ i →
      i < s.lineStart + max s.previous.length line.length →
      s'.cellsOf s'.visible i = s.previous.getD (i - s.lineStart) 32

/-- What is left of the line, and behind it the cells of what `printf` makes of the command. -/
def recalled (line : List UInt8) (st : Stack) : List UInt8 :=
  let kept := keptChars s.kbd.saveX line.length
  line.take kept ++ Screen.lay 32 isNewline 80 ((s.kbd.saveX + kept) % 80)
    (printfOut (s.recalledText st) st).chars

/-- The rows that scroll when the cursor gets to `n` cells behind the saved position. -/
def rowsLost (n : Nat) : Nat := (s.lineStart + n) / 80 - 24

/-- The strings that the command asks `printf` for can be read, and what is left of the line with
what is printed is the command, behind the rows that scroll off. -/
def UpFits (line : List UInt8) (st : Stack) : Prop :=
  (∀ k ∈ stringArgs (s.recalledText st), st.Reads k) ∧
    (s.recalled line st).length = 80 * s.rowsLost (s.recalled line st).length + s.previous.length ∧
    s.previous <:+ s.recalled line st

instance (line : List UInt8) (st : Stack) : Decidable (s.UpFits line st) :=
  inferInstanceAs (Decidable (_ ∧ _ ∧ _))

end Kernel

/-! ## The erase loop -/

section Erase

variable {frame saveX saveY : Nat} {c : Console} {line : List UInt8} {T : Nat → UInt8}

/-- Where the loop stops, counted from the start of the line. -/
theorem findGreatest_stops (hx : saveX < 80) (saveY n : Nat) :
    Nat.findGreatest (Stops saveX saveY) (cellOf (saveX, saveY) + n) =
      cellOf (saveX, saveY) + keptChars saveX n := by
  rw [Nat.findGreatest_eq_iff]
  unfold Stops cellOf keptChars
  dsimp only
  refine ⟨?_, fun _ => ?_, fun q hq hle => ?_⟩
  · split_ifs <;> omega
  · split_ifs <;> omega
  · split_ifs at hq <;> omega

theorem keptChars_le (hx : saveX < 80) (n : Nat) : keptChars saveX n ≤ n := by
  unfold keptChars
  dsimp only
  split_ifs <;> omega

/-- The loop leaves `keptChars` of a line that ends at the cursor. -/
theorem eraseLine_ends (hx : saveX < 80) (h : c.InRange)
    (he : (c.screen frame).Ends 32 T (cellOf (saveX, saveY)) 0 line) :
    ∃ c', eraseLine frame saveX saveY (80 * c.screenY + c.screenX + 1) c = (c', true) ∧
      c'.InRange ∧ (c'.screen frame).Ends 32 T (cellOf (saveX, saveY)) 0
        (line.take (keptChars saveX line.length)) := by
  have hpos : c.pos = cellOf (saveX, saveY) + line.length := by
    have hp := Screen.Shows.place he
    rw [Nat.mul_zero, Nat.zero_add] at hp
    exact hp
  have hle := keptChars_le hx line.length
  have hstop : Stops saveX saveY (cellOf (saveX, saveY)) := by
    unfold Stops cellOf
    omega
  obtain ⟨c', hr, herase, -⟩ := eraseLine_stops frame h (Nat.lt_succ_self c.pos)
    ⟨cellOf (saveX, saveY), by omega, hstop⟩
  have hn : c.pos - Nat.findGreatest (Stops saveX saveY) c.pos =
      line.length - keptChars saveX line.length := by
    rw [hpos, findGreatest_stops hx]
    omega
  rw [hn] at hr
  obtain ⟨u, hu, hplane⟩ := draws_backs frame (n := line.length - keptChars saveX line.length) h
    (by omega)
  obtain rfl : c' = u := Option.some.inj (hr.symm.trans hu)
  refine ⟨c', herase, (draws_draws h hr).inRange, ?_⟩
  have hscreen := hplane false
  rw [Console.plane_false, Console.plane_false] at hscreen
  have hb := he.backs (Nat.zero_le _) (n := line.length - keptChars saveX line.length) (by omega)
  rw [Nat.sub_sub_self hle] at hb
  rw [hscreen]
  exact hb

end Erase

/-! ## The previous command -/

/-- Behind the previous command there are zeros. -/
def Kbd.PrevEnds (k : Kbd) : Prop := ∀ i : Fin 128, k.previousNumChars ≤ i → k.previousBuf i = 0

/-- A command that `printf` prints as it is. -/
def PlainText (text : List UInt8) : Prop :=
  ∀ b ∈ text, b ≠ 0 ∧ b ≠ ch '%' ∧ ¬ isNewline b = true

section Previous

variable {s s' : Kernel} {e : Event}

theorem Kbd.PrevEnds.press {k : KbState} (h : k.kbd.PrevEnds) (f : Flags) (x y c : Nat) :
    (k.press f x y c).kbd.PrevEnds := by
  have hnote : (k.kbd.notePosition x y).PrevEnds := by
    unfold Kbd.notePosition
    split
    · exact h
    · exact h
  have henter : k.kbd.finishLine.PrevEnds := by
    unfold Kbd.finishLine
    split
    · intro i hi
      exact if_neg (Int.not_lt.mpr hi)
    · exact h
  unfold KbState.press KbState.edit
  dsimp only
  split_ifs <;> first | exact h | exact henter | exact hnote

theorem prevEnds_step (hd : s.DriversOk) (h : ∀ t, (s.kbState t).kbd.PrevEnds)
    (hs : s.step e = some s') (t : Int) : (s'.kbState t).kbd.PrevEnds := by
  obtain hk | hk | ⟨f, x, y, c, -, -, hk⟩ := kbState_step hd.cursors hd.lines hs t
  · rw [hk]
    exact h t
  · rw [hk]
    exact h t
  · rw [hk]
    exact (h t).press f x y c

theorem prevEnds_boot (b : BootIn) (t : Int) : ((boot b).kbState t).kbd.PrevEnds := by
  simp only [Kernel.kbState]
  split
  · exact fun _ _ => rfl
  · simp only [boot, Kernel.initPIT, Kernel.initTerminals]
    split <;> exact fun _ _ => rfl

/-- In a reachable state the drivers are well formed, and zeros end the previous command of the
visible terminal. -/
theorem driversOk_run {b : BootIn} {es : List Event} (h : kernel.run (boot b) es = some s) :
    s.DriversOk ∧ s.kbd.PrevEnds := by
  have hi := Lts.run_inv' (M := kernel)
    (I := fun s => s.DriversOk ∧ ∀ t, (s.kbState t).kbd.PrevEnds)
    (fun _ _ _ hi hs => ⟨driversOk_step hi.1 hs, prevEnds_step hi.1 hi.2 hs⟩)
    ⟨driversOk_boot b, prevEnds_boot b⟩ h
  have hv := hi.2 s.visible
  rw [kbState_visible] at hv
  exact ⟨hi.1, hv⟩

theorem length_previous (h : s.kbd.Ok) : (s.previous.length : Int) = s.kbd.previousNumChars := by
  have h0 := h.prevNonneg
  have h1 := h.prevLe
  simp only [Kernel.previous, Kbd.editor, List.length_take, Buf.length_toList]
  omega

/-- The command as the format that `printf` gets. -/
theorem recalledText_previous (h : s.kbd.Ok) (hp : s.kbd.PrevEnds) (st : Stack) :
    (∀ i, i < s.previous.length → s.recalledText st i = s.previous.getD i 0) ∧
      s.recalledText st s.previous.length = 0 := by
  have hlen := length_previous h
  have h1 := h.prevLe
  constructor
  · intro i hi
    have hi' : i < 128 := by omega
    rw [Kernel.recalledText, if_pos hi', Buf.getD, dif_pos hi', List.getD_eq_getElem?_getD,
      List.getElem?_eq_getElem hi, Option.getD_some]
    simp only [Kernel.previous, Kbd.editor, List.getElem_take, Buf.getElem_toList]
  · have hi : s.previous.length < 128 := by omega
    rw [Kernel.recalledText, if_pos hi, Buf.getD, dif_pos hi]
    exact hp _ (by simp only; omega)

/-- A plain command is printed as it is. -/
theorem printfOut_previous (h : s.kbd.Ok) (hp : s.kbd.PrevEnds) (hplain : PlainText s.previous)
    (st : Stack) : printfOut (s.recalledText st) st = ⟨s.previous, false⟩ := by
  obtain ⟨hf, hend⟩ := recalledText_previous h hp st
  have hlen := length_previous h
  have h1 := h.prevLe
  exact printfOut_literal hf hend (fun b hb => ⟨(hplain b hb).1, (hplain b hb).2.1⟩) (by omega)

end Previous

/-! ## The Up key -/

section Up

variable {s : Kernel} {line : List UInt8}

/-- The screen that a key works on is that of the visible terminal. -/
theorem screen_beginKey (h : s.CursorsOk) : s.beginKey.con.screen 0xB8 = s.view s.visible := by
  obtain ⟨hx, hy⟩ := beginKey_cursor h
  have hpage : s.pageOf s.visible = 0xB8 := if_pos rfl
  refine Screen.ext (funext fun i => ?_) ?_ ?_
  · show s.con.vram (0xB8 * 4096 + 2 * i) = s.con.vram (s.pageOf s.visible * 4096 + 2 * i)
    rw [hpage]
  · exact hx
  · exact hy

theorem endKey_visible (s : Kernel) : s.endKey.visible = s.visible := rfl

/-- At the end of a key it still is. -/
theorem view_endKey (h : s.con.InRange) : s.endKey.view s.visible = s.con.screen 0xB8 := by
  have hpage : s.endKey.pageOf s.visible = 0xB8 := if_pos rfl
  have hcur : s.endKey.cursorOf s.visible = s.cursorAt :=
    (cursorOf_endKey h s.visible).trans (if_pos rfl)
  refine Screen.ext (funext fun i => ?_) ?_ ?_
  · show s.con.vram (s.endKey.pageOf s.visible * 4096 + 2 * i) = s.con.vram (0xB8 * 4096 + 2 * i)
    rw [hpage]
  · exact congrArg Prod.fst hcur
  · exact congrArg Prod.snd hcur

/-- The state that Up leaves when the loop ends at `con` and `printf` does not fault. -/
def Kernel.upDone (s : Kernel) (st : Stack) (con : Console) : Kernel :=
  { s.beginKey with
    kbd := s.kbd.recallLine
    con := con.putcs 0xB8 (printfOut (s.recalledText st) st).chars }

/-- Up, with the erase loop done. -/
theorem keyboardHandler_erased {st : Stack} {con : Console}
    (he : eraseLine 0xB8 s.kbd.saveX s.kbd.saveY
      (80 * s.beginKey.con.screenY + s.beginKey.con.screenX + 1) s.beginKey.con = (con, true)) :
    s.keyboardHandler 0x48 st =
      if (printfOut (s.recalledText st) st).faults then .fault (s.upDone st con)
      else .ret (s.upDone st con).endKey := by
  have hm : modifierKey s.flags 0x48 = none := rfl
  have hup : s.beginKey.upKey st =
      if (printfOut (s.recalledText st) st).faults then .fault (s.upDone st con)
      else .ret (s.upDone st con) := by
    unfold Kernel.upKey
    dsimp only
    rw [beginKey_videoFrame, show s.beginKey.kbd = s.kbd from rfl, he]
    rfl
  unfold Kernel.keyboardHandler
  rw [hm]
  dsimp only
  rw [if_pos rfl, hup]
  by_cases hf : (printfOut (s.recalledText st) st).faults = true
  · rw [if_pos hf, if_pos hf]
  · rw [if_neg hf, if_neg hf]

/-- The line on the screen. -/
theorem Kernel.TypedSince.ends (h : s.TypedSince line) (hc : s.CursorsOk) :
    ∃ T, (s.view s.visible).Ends 32 T s.lineStart 0 line := by
  have hlt := cursorOf_lt hc s.visible
  exact Screen.ends_self hlt.1 hlt.2 h.cursor h.cells

/-- **The screen after Up.** It has what is left of the line and what is printed behind it. -/
theorem up_ends (hd : s.DriversOk) (h : s.TypedSince line) (st : Stack) :
    ∃ con T, (s.upDone st con).con.InRange ∧
      s.keyboardHandler 0x48 st =
        (if (printfOut (s.recalledText st) st).faults then .fault (s.upDone st con)
        else .ret (s.upDone st con).endKey) ∧
      ((s.upDone st con).con.screen 0xB8).Ends 32 T s.lineStart
        (s.rowsLost (s.recalled line st).length) (s.recalled line st) := by
  have hin := hd.cursors.beginKey.con
  obtain ⟨T, hends⟩ := h.ends hd.cursors
  rw [← screen_beginKey hd.cursors] at hends
  obtain ⟨con, he, hcon, hkept⟩ := eraseLine_ends hd.save.1 hin hends
  have hx : (con.screen 0xB8).x =
      (s.kbd.saveX + keptChars s.kbd.saveX line.length) % 80 := by
    have hp := Screen.Shows.place hkept
    have hle := keptChars_le hd.save.1 line.length
    have hlt : (con.screen 0xB8).x < 80 := hcon.x
    rw [List.length_take] at hp
    unfold cellOf at hp
    omega
  obtain ⟨k, hk, -, hlast⟩ := hkept.prints isNewline (printfOut (s.recalledText st) st).chars
  rw [hx, ← Console.screen_putcs hcon] at hk
  have hdraws : Console.Draws 0xB8 con (s.upDone st con).con := Console.putcs_draws hcon _
  refine ⟨con, T, hdraws.inRange, keyboardHandler_erased he, ?_⟩
  have hrows : k = s.rowsLost (s.recalled line st).length := by
    have hp : 80 * k + (80 * (s.upDone st con).con.screenY + (s.upDone st con).con.screenX) =
        s.lineStart + (s.recalled line st).length := Screen.Shows.place hk
    have hx' := hdraws.inRange.x
    have hy' := hdraws.inRange.y
    have hlast' : k = 0 ∨ (s.upDone st con).con.screenY + 1 = 25 := by
      rw [← Console.screen_putcs hcon] at hlast
      exact hlast
    unfold Kernel.rowsLost
    omega
  rw [← hrows]
  exact hk

theorem upFits_reads (st : Stack) : (∀ k ∈ stringArgs (s.recalledText st), st.Reads k) ↔
    ¬ (printfOut (s.recalledText st) st).faults = true := by
  rw [← printfOut_faults, Bool.not_eq_true]

/-- Up shows the previous command exactly if it fits. -/
theorem upShows_iff_upFits (hd : s.DriversOk) (h : s.TypedSince line) (st : Stack) :
    s.UpShows line st ↔ s.UpFits line st := by
  obtain ⟨con, T, hin, hkey, hends⟩ := up_ends hd h st
  rw [Kernel.UpShows, Kernel.UpFits, hkey, upFits_reads]
  by_cases hf : (printfOut (s.recalledText st) st).faults = true
  · rw [if_pos hf]
    exact iff_of_false (fun ⟨_, hr, _⟩ => by cases hr) fun hr => hr.1 hf
  · rw [if_neg hf, and_iff_right hf]
    have hvis : (s.upDone st con).endKey.visible = s.visible := endKey_visible (s.upDone st con)
    have hview : (s.upDone st con).endKey.view s.visible = (s.upDone st con).con.screen 0xB8 :=
      view_endKey (s := s.upDone st con) hin
    rw [← hview, ← hvis] at hends
    generalize (s.upDone st con).endKey = u at hends ⊢
    refine Iff.trans ⟨?_, fun hshows => ⟨u, rfl, hshows⟩⟩ (hends.suffix_iff s.previous line.length)
    rintro ⟨s', hr, hshows⟩
    cases hr
    exact hshows

/-- A plain command fits exactly if what is left of the line is the rows that scroll off. -/
theorem upFits_plain (hd : s.DriversOk) (hp : s.kbd.PrevEnds) (hplain : PlainText s.previous)
    (line : List UInt8) (st : Stack) :
    s.UpFits line st ↔ keptChars s.kbd.saveX line.length =
      80 * s.rowsLost (keptChars s.kbd.saveX line.length + s.previous.length) := by
  have hout := printfOut_previous hd.lines.kbd hp hplain st
  have hle := keptChars_le hd.save.1 line.length
  have hreads : ∀ k ∈ stringArgs (s.recalledText st), st.Reads k := by
    rw [← printfOut_faults, hout]
  have htext : s.recalled line st =
      line.take (keptChars s.kbd.saveX line.length) ++ s.previous := by
    unfold Kernel.recalled
    rw [hout]
    dsimp only
    rw [Screen.lay_of_no_newline fun b hb => (hplain b hb).2.2]
  have hlen : (s.recalled line st).length =
      keptChars s.kbd.saveX line.length + s.previous.length := by
    rw [htext, List.length_append, List.length_take, Nat.min_eq_left hle]
  rw [Kernel.UpFits, and_iff_right hreads, hlen, htext, and_iff_left (List.suffix_append ..)]
  omega

/-- **The history key shows the recalled command** exactly if it fits: the part of the line that the
erase loop leaves, with what `printf` makes of the command, has to be the command behind the rows
that scroll off. For a command that `printf` prints as it is the part has to be those rows: none
of the line, or as many rows as scroll. -/
theorem upShows_iff {b : BootIn} {es : List Event} (h : kernel.run (boot b) es = some s)
    (hline : s.TypedSince line) (st : Stack) :
    (s.UpShows line st ↔ s.UpFits line st) ∧
    (PlainText s.previous → (s.UpFits line st ↔ keptChars s.kbd.saveX line.length =
      80 * s.rowsLost (keptChars s.kbd.saveX line.length + s.previous.length))) := by
  obtain ⟨hd, hp⟩ := driversOk_run h
  exact ⟨upShows_iff_upFits hd hline st, fun hplain => upFits_plain hd hp hplain line st⟩

/-- On the last row but one `ls` is typed and read, and then `x` on the last row. -/
def typesAfterLs : List Event :=
  sampleLaunches ++ [.write 1 0x8000000 (fun _ => ch '\n') 23] ++ sampleKeys [0x26, 0x1F, 0x1C] ++
    [.read 0 0x8000000 (fun _ => 0) (fun _ => 0) 128] ++ sampleKeys [0x2D]

/-- With the `x` taken back, Up shows `ls`. -/
theorem upShows_sample :
    ∃ s, kernel.run (boot sampleBoot) (typesAfterLs ++ sampleKeys [0x0E]) = some s ∧
      s.lineStart = 1920 ∧ s.previous = lit ['l', 's'] ∧ s.TypedSince [] ∧
      s.UpShows [] sampleStack := by
  have hv : (kernel.run (boot sampleBoot) (typesAfterLs ++ sampleKeys [0x0E])).map (fun s =>
      (s.lineStart, s.previous, decide (s.TypedSince []), decide (s.UpFits [] sampleStack))) =
      some (1920, lit ['l', 's'], true, true) := by decide +kernel
  obtain ⟨s, hs, hv⟩ := Option.map_eq_some_iff.mp hv
  simp only [Prod.mk.injEq] at hv
  obtain ⟨hstart, hprev, hline, hfits⟩ := hv
  have hline := of_decide_eq_true hline
  refine ⟨s, hs, hstart, hprev, hline, ?_⟩
  exact (upShows_iff hs hline sampleStack).1.mpr (of_decide_eq_true hfits)

/-- With the `x` on the screen, Up shows `xls`: the loop is at the saved row from the start. -/
theorem up_keeps_typed_line :
    ∃ s, kernel.run (boot sampleBoot) typesAfterLs = some s ∧ s.TypedSince (lit ['x']) ∧
      s.previous = lit ['l', 's'] ∧ ¬ s.UpShows (lit ['x']) sampleStack := by
  have hv : (kernel.run (boot sampleBoot) typesAfterLs).map (fun s =>
      (s.lineStart, s.previous, decide (s.TypedSince (lit ['x'])),
        (s.keyboardHandler 0x48 sampleStack).returned.map fun s' =>
          cellOf (s'.cursorOf s'.visible))) =
      some (1920, lit ['l', 's'], true, some 1923) := by decide +kernel
  obtain ⟨s, hs, hv⟩ := Option.map_eq_some_iff.mp hv
  simp only [Prod.mk.injEq] at hv
  obtain ⟨hstart, hprev, hline, hcur⟩ := hv
  refine ⟨s, hs, of_decide_eq_true hline, hprev, ?_⟩
  rintro ⟨s', hr, hshown, -⟩
  rw [hr] at hcur
  have hcur' : cellOf (s'.cursorOf s'.visible) = 1923 := Option.some.inj hcur
  rw [hcur', hstart, hprev] at hshown
  exact absurd hshown (by decide)

end Up

end Mp3
