import Mathlib.Data.Nat.Find
import Mp3Os.Calls
import Mp3Os.Printf

/-!
# The erase loop of the Up key

The loop calls `backspace` while both coordinates differ from the saved ones. `backspace` walks
the cells back one by one, so the loop ends at the last cell, not after the cursor, that is in the
saved column or in the saved row (`Stops`), and it runs off the screen if there is none. With the
saved column on the screen that happens exactly when the cursor is in the first row, left of the
saved column, and the saved row is another one (`OutOfReach`).
-/

namespace Mp3

/-- The loop ends in cell `q`. -/
def Stops (saveX saveY q : Nat) : Prop := q % 80 = saveX ∨ q / 80 = saveY

instance (saveX saveY : Nat) : DecidablePred (Stops saveX saveY) :=
  fun _ => inferInstanceAs (Decidable (_ ∨ _))

/-- The loop of the source: `n` rounds in which the condition holds, and then it does not. -/
def LoopEnds (frame saveX saveY : Nat) (c : Console) : Prop :=
  ∃ n c', draws frame c (List.replicate n .backspace) = some c' ∧
    ¬ (c'.screenX ≠ saveX ∧ c'.screenY ≠ saveY) ∧
    ∀ m < n, ∀ u, draws frame c (List.replicate m .backspace) = some u →
      u.screenX ≠ saveX ∧ u.screenY ≠ saveY

/-- The calls of the loop. -/
def eraseCalls (frame saveX saveY : Nat) : Nat → Console → List DrawCall
  | 0, _ => []
  | fuel + 1, c =>
    if c.screenX ≠ saveX ∧ c.screenY ≠ saveY then
      .backspace :: match c.backspace frame with
        | none => []
        | some c' => eraseCalls frame saveX saveY fuel c'
    else []

/-- The loop would leave the screen: the cursor at `x`, `y` is in the first row, left of the saved
column, and the saved row is another one. -/
def OutOfReach (saveX saveY x y : Nat) : Prop := y = 0 ∧ x < saveX ∧ saveY ≠ 0

instance (saveX saveY x y : Nat) : Decidable (OutOfReach saveX saveY x y) :=
  inferInstanceAs (Decidable (_ ∧ _))

section Loop

variable {frame saveX saveY fuel : Nat} {c c' : Console}

theorem stops_pos (h : c.InRange) :
    Stops saveX saveY c.pos ↔ ¬ (c.screenX ≠ saveX ∧ c.screenY ≠ saveY) := by
  have hx := h.x
  unfold Stops Console.pos
  omega

/-- Where the loop ends. -/
theorem stops_iff (hx : saveX < 80) {x y : Nat} (hx' : x < 80) :
    (∃ q ≤ 80 * y + x, Stops saveX saveY q) ↔ ¬ OutOfReach saveX saveY x y := by
  unfold Stops OutOfReach
  constructor
  · rintro ⟨q, hq, hs⟩
    omega
  · intro h
    by_cases hcol : saveX ≤ 80 * y + x
    · exact ⟨saveX, hcol, .inl (Nat.mod_eq_of_lt hx)⟩
    · exact ⟨80 * y + x, Nat.le_refl _, .inr (by omega)⟩

/-- The loop with a cell to end in. -/
theorem eraseLine_stops (frame : Nat) (h : c.InRange) (hf : c.pos < fuel)
    (hq : ∃ q ≤ c.pos, Stops saveX saveY q) :
    ∃ c', draws frame c
        (List.replicate (c.pos - Nat.findGreatest (Stops saveX saveY) c.pos) .backspace) = some c' ∧
      eraseLine frame saveX saveY fuel c = (c', true) ∧
      eraseCalls frame saveX saveY fuel c =
        List.replicate (c.pos - Nat.findGreatest (Stops saveX saveY) c.pos) .backspace := by
  induction fuel generalizing c with
  | zero => exact absurd hf (Nat.not_lt_zero _)
  | succ fuel ih =>
    rw [eraseLine, eraseCalls]
    by_cases hs : Stops saveX saveY c.pos
    · have hcond := (stops_pos h).mp hs
      rw [if_neg hcond, if_neg hcond, Nat.findGreatest_eq hs, Nat.sub_self]
      exact ⟨c, rfl, rfl, rfl⟩
    · have hcond := not_not.mp (mt (stops_pos h).mpr hs)
      rw [if_pos hcond, if_pos hcond]
      -- the cell to end in is further back
      have hback : ∃ q < c.pos, Stops saveX saveY q := by
        obtain ⟨q, hle, hq⟩ := hq
        refine ⟨q, Nat.lt_of_le_of_ne hle fun he => hs ?_, hq⟩
        rwa [← he]
      obtain ⟨q, hlt, hq⟩ := hback
      obtain ⟨u, hu⟩ := backspace_isSome frame (c := c) (by omega)
      have hpos := backspace_pos h hu
      obtain ⟨c', hr, he, hcalls⟩ := ih (Console.backspace_draws h hu).inRange (by omega)
        ⟨q, by omega, hq⟩
      rw [← hpos] at hs ⊢
      have hle := Nat.findGreatest_le (P := Stops saveX saveY) u.pos
      rw [Nat.findGreatest_of_not hs, Nat.sub_add_comm hle, List.replicate_succ, hu]
      refine ⟨c', ?_, he, ?_⟩
      · rw [draws_cons]
        show (c.backspace frame).bind _ = _
        rw [hu]
        exact hr
      · rw [← hcalls]

/-- The loop without a cell to end in: it calls `backspace` in the top left corner. -/
theorem eraseLine_runs_off (frame : Nat) (h : c.InRange) (hf : c.pos < fuel)
    (hq : ¬ ∃ q ≤ c.pos, Stops saveX saveY q) :
    (eraseLine frame saveX saveY fuel c).2 = false ∧
      eraseCalls frame saveX saveY fuel c = List.replicate (c.pos + 1) .backspace := by
  induction fuel generalizing c with
  | zero => exact absurd hf (Nat.not_lt_zero _)
  | succ fuel ih =>
    have hs : ¬ Stops saveX saveY c.pos := fun hs => hq ⟨c.pos, Nat.le_refl _, hs⟩
    have hcond := not_not.mp (mt (stops_pos h).mpr hs)
    rw [eraseLine, eraseCalls, if_pos hcond, if_pos hcond]
    cases hb : c.backspace frame with
    | none =>
      have hpos : c.pos = 0 := by
        by_contra hne
        obtain ⟨u, hu⟩ := backspace_isSome frame hne
        rw [hb] at hu
        cases hu
      rw [hpos]
      exact ⟨rfl, rfl⟩
    | some u =>
      have hpos := backspace_pos h hb
      obtain ⟨hf, hcalls⟩ := ih (Console.backspace_draws h hb).inRange (by omega) fun ⟨q, hle, hq'⟩ =>
        hq ⟨q, by omega, hq'⟩
      rw [← hpos, List.replicate_succ, ← hcalls]
      exact ⟨hf, rfl⟩

/-- **The loop ends** exactly if there is a cell to end in. -/
theorem loopEnds_iff (h : c.InRange) :
    LoopEnds frame saveX saveY c ↔ ∃ q ≤ c.pos, Stops saveX saveY q := by
  constructor
  · rintro ⟨n, c', hr, hstop, -⟩
    have hin := (draws_draws h hr).inRange
    have hpos := draws_backs_pos h hr
    exact ⟨c'.pos, by omega, (stops_pos hin).mpr hstop⟩
  · intro hq
    obtain ⟨c', hr, -⟩ := eraseLine_stops frame h (Nat.lt_succ_self _) hq
    have hin := (draws_draws h hr).inRange
    have hpos := draws_backs_pos h hr
    have hle := Nat.findGreatest_le (P := Stops saveX saveY) c.pos
    refine ⟨_, c', hr, (stops_pos hin).mp ?_, fun m hm u hu => ?_⟩
    · obtain ⟨q, hq, hs⟩ := hq
      rw [show c'.pos = Nat.findGreatest (Stops saveX saveY) c.pos by omega]
      exact Nat.findGreatest_spec hq hs
    · have hu' := draws_backs_pos h hu
      have hns : ¬ Stops saveX saveY u.pos :=
        Nat.findGreatest_is_greatest (n := c.pos) (by omega) (by omega)
      exact not_not.mp (mt (stops_pos (draws_draws h hu).inRange).mpr hns)

/-- The model's loop has enough rounds: it ends exactly if that of the source does. -/
theorem eraseLine_iff (h : c.InRange) (hf : c.pos < fuel) :
    (eraseLine frame saveX saveY fuel c).2 = true ↔ LoopEnds frame saveX saveY c := by
  rw [loopEnds_iff h]
  by_cases hq : ∃ q ≤ c.pos, Stops saveX saveY q
  · obtain ⟨c', -, he, -⟩ := eraseLine_stops frame h hf hq
    rw [he]
    exact iff_of_true rfl hq
  · have he := (eraseLine_runs_off frame h hf hq).1
    rw [he]
    exact iff_of_false (by decide) hq

end Loop

/-! ## The saved positions -/

/-- The saved position of every driver is on the screen. -/
def Kernel.SavesOk (s : Kernel) : Prop :=
  ∀ t, (s.kbState t).kbd.saveX < 80 ∧ (s.kbState t).kbd.saveY < 25

section Saves

variable {s s' : Kernel} {e : Event}

/-- A key saves the position of the cursor or leaves the saved one. -/
theorem press_saves (k : KbState) (f : Flags) (x y c : Nat) :
    ((k.press f x y c).kbd.saveX = k.kbd.saveX ∧ (k.press f x y c).kbd.saveY = k.kbd.saveY) ∨
    ((k.press f x y c).kbd.saveX = x ∧ (k.press f x y c).kbd.saveY = y) := by
  have hnote : ∀ kbd : Kbd, ((kbd.notePosition x y).saveX = kbd.saveX ∧
      (kbd.notePosition x y).saveY = kbd.saveY) ∨
      ((kbd.notePosition x y).saveX = x ∧ (kbd.notePosition x y).saveY = y) := by
    intro kbd
    unfold Kbd.notePosition
    split
    · exact .inr ⟨rfl, rfl⟩
    · exact .inl ⟨rfl, rfl⟩
  unfold KbState.press KbState.edit Kbd.finishLine
  dsimp only
  split_ifs <;> first | exact .inl ⟨rfl, rfl⟩ | exact hnote k.kbd

theorem savesOk_step (hc : s.CursorsOk) (hl : s.LinesOk) (h : s.SavesOk)
    (hs : s.step e = some s') : s'.SavesOk := by
  intro t
  obtain hk | hk | ⟨f, x, y, c, hx, hy, hk⟩ := kbState_step hc hl hs t
  · rw [hk]
    exact h t
  · rw [hk]
    exact h t
  · rw [hk]
    rcases press_saves (s.kbState t) f x y c with ⟨hsx, hsy⟩ | ⟨hsx, hsy⟩
    · rw [hsx, hsy]
      exact h t
    · rw [hsx, hsy]
      exact ⟨hx, hy⟩

theorem savesOk_boot (b : BootIn) : (boot b).SavesOk := by
  intro t
  simp only [Kernel.kbState]
  split
  · exact ⟨Nat.zero_lt_succ 79, Nat.zero_lt_succ 24⟩
  · simp only [boot, Kernel.initPIT, Kernel.initTerminals]
    split <;> exact ⟨Nat.zero_lt_succ 79, Nat.zero_lt_succ 24⟩

/-- The invariants of the cursors, the lines and the saved positions. -/
structure Kernel.DriversOk (s : Kernel) : Prop where
  cursors : s.CursorsOk
  lines : s.LinesOk
  saves : s.SavesOk

theorem driversOk_step (h : s.DriversOk) (hs : s.step e = some s') : s'.DriversOk :=
  ⟨cursorsOk_step h.cursors hs, linesOk_step h.cursors h.lines hs,
    savesOk_step h.cursors h.lines h.saves hs⟩

theorem driversOk_boot (b : BootIn) : (boot b).DriversOk :=
  ⟨cursorsOk_boot b, linesOk_boot b, savesOk_boot b⟩

/-- The saved position of the visible terminal. -/
theorem Kernel.DriversOk.save (h : s.DriversOk) : s.kbd.saveX < 80 ∧ s.kbd.saveY < 25 := by
  have hv := h.saves s.visible
  rw [kbState_visible] at hv
  exact hv

/-- The cursor that a key works on. -/
theorem beginKey_cursor (h : s.CursorsOk) : s.beginKey.con.screenX = (s.cursorOf s.visible).1 ∧
    s.beginKey.con.screenY = (s.cursorOf s.visible).2 :=
  ⟨congrArg Prod.fst (cursorAt_beginKey h.con), congrArg Prod.snd (cursorAt_beginKey h.con)⟩

end Saves

/-! ## The Up key -/

namespace Kernel

variable (s : Kernel) (st : Stack)

/-- What `printf` is given by the Up key: the previous line, and what follows `buf_kb`. -/
def recalledText (i : Nat) : UInt8 :=
  if i < 128 then s.kbd.previousBuf.getD i else st.after (i - 128)

/-- The erase loop ends, and the handler returns. -/
def UpReturns : Prop :=
  LoopEnds 0xB8 s.kbd.saveX s.kbd.saveY s.beginKey.con ∧ ∃ s', s.keyboardHandler 0x48 st = .ret s'

/-- The loop gets to the saved column or row, and the previous line reads no string that cannot
be read. -/
def UpSafe : Prop :=
  ¬ OutOfReach s.kbd.saveX s.kbd.saveY (s.cursorOf s.visible).1 (s.cursorOf s.visible).2 ∧
    ∀ k ∈ stringArgs (s.recalledText st), st.Reads k

instance : Decidable (s.UpSafe st) := inferInstanceAs (Decidable (_ ∧ _))

end Kernel

section Up

variable {s : Kernel}

/-- The Up key between `beginKey` and `endKey` returns if the loop ends and `printf` does not
fault. -/
theorem upKey_ret (st : Stack) :
    (∃ s', s.upKey st = .ret s') ↔
      (eraseLine s.paging.videoFrame s.kbd.saveX s.kbd.saveY
        (80 * s.con.screenY + s.con.screenX + 1) s.con).2 = true ∧
      (printfOut (s.recalledText st) st).faults = false := by
  unfold Kernel.upKey
  dsimp only
  split
  · rename_i he
    rw [and_iff_right he]
    show (∃ s', (if (printfOut (s.recalledText st) st).faults = true then _ else _) = _) ↔ _
    split
    · rename_i hf
      simp [hf]
    · rename_i hf
      exact iff_of_true ⟨_, rfl⟩ (Bool.not_eq_true _ ▸ hf)
  · rename_i he
    simp [he]

theorem keyboardHandler_up (st : Stack) :
    (∃ s', s.keyboardHandler 0x48 st = .ret s') ↔ ∃ s', s.beginKey.upKey st = .ret s' := by
  have hm : modifierKey s.flags 0x48 = none := rfl
  unfold Kernel.keyboardHandler
  rw [hm]
  dsimp only
  rw [if_pos rfl]
  cases s.beginKey.upKey st with
  | ret u => exact iff_of_true ⟨_, rfl⟩ ⟨_, rfl⟩
  | fault u => exact iff_of_false (fun ⟨_, h⟩ => by cases h) fun ⟨_, h⟩ => by cases h

/-- **The history key returns**, in a reachable state, exactly if the saved position is in reach and
the recalled text reads no string that cannot be read. -/
theorem upReturns_iff {b : BootIn} {es : List Event} (h : kernel.run (boot b) es = some s)
    (st : Stack) : s.UpReturns st ↔ s.UpSafe st := by
  have hd : s.DriversOk := Lts.run_inv' (M := kernel) (I := Kernel.DriversOk)
    (fun _ _ _ hi hs => driversOk_step hi hs) (driversOk_boot b) h
  have hin := hd.cursors.beginKey.con
  obtain ⟨hx, hy⟩ := beginKey_cursor hd.cursors
  have hends : LoopEnds 0xB8 s.kbd.saveX s.kbd.saveY s.beginKey.con ↔
      ¬ OutOfReach s.kbd.saveX s.kbd.saveY (s.cursorOf s.visible).1 (s.cursorOf s.visible).2 := by
    rw [loopEnds_iff hin, ← hx, ← hy]
    exact stops_iff hd.save.1 hin.x
  have hline : (eraseLine s.beginKey.paging.videoFrame s.kbd.saveX s.kbd.saveY
      (80 * s.beginKey.con.screenY + s.beginKey.con.screenX + 1) s.beginKey.con).2 = true ↔
      LoopEnds 0xB8 s.kbd.saveX s.kbd.saveY s.beginKey.con := by
    rw [beginKey_videoFrame]
    exact eraseLine_iff hin (Nat.lt_succ_self _)
  rw [Kernel.UpReturns, Kernel.UpSafe, keyboardHandler_up, upKey_ret, ← hends, ← printfOut_faults]
  constructor
  · rintro ⟨he, -, hf⟩
    exact ⟨he, hf⟩
  · rintro ⟨he, hf⟩
    exact ⟨he, hline.mpr he, hf⟩

/-- A stack of `printf` without readable strings. -/
def sampleStack : Stack := ⟨fun _ => 0, fun _ => none, fun _ => 0⟩

/-- The shell prints its prompt. -/
def samplePrompt : Event :=
  .write 1 0x8000000 (memory [(0, lit ['3', '9', '1', 'O', 'S', '>', ' '])]) 7

/-- Two lines on terminal 2: an empty one, which the shell reads, and `a`. -/
def typesOnSecondRow : List Event :=
  sampleLaunches ++ [samplePrompt] ++ sampleKeys [0x1C] ++
    [.read 0 0x8000000 (fun _ => 0) (fun _ => 0) 128, samplePrompt] ++ sampleKeys [0x1E]

/-- Up returns while the line stands where it was typed. -/
theorem upReturns_sample :
    ∃ s, kernel.run (boot sampleBoot) typesOnSecondRow = some s ∧
      s.cursorOf s.visible = (8, 1) ∧ s.kbd.saveX = 7 ∧ s.kbd.saveY = 1 ∧
      s.UpReturns sampleStack := by
  have hv : (kernel.run (boot sampleBoot) typesOnSecondRow).map (fun s =>
      (s.cursorOf s.visible, s.kbd.saveX, s.kbd.saveY, decide (s.UpSafe sampleStack))) =
      some ((8, 1), 7, 1, true) := by decide +kernel
  obtain ⟨s, hs, hv⟩ := Option.map_eq_some_iff.mp hv
  simp only [Prod.mk.injEq] at hv
  obtain ⟨hc, hx, hy, hsafe⟩ := hv
  refine ⟨s, hs, hc, hx, hy, ?_⟩
  exact (upReturns_iff hs sampleStack).mpr (of_decide_eq_true hsafe)

/-- After Ctrl+L the saved position is out of reach, and Up faults. -/
theorem up_faults_after_clear :
    ∃ s, kernel.run (boot sampleBoot) (typesOnSecondRow ++ sampleKeys [0x1D, 0x26, 0x9D]) = some s ∧
      s.cursorOf s.visible = (0, 0) ∧ s.kbd.saveX = 7 ∧ s.kbd.saveY = 1 ∧
      ¬ s.UpReturns sampleStack := by
  have hv : (kernel.run (boot sampleBoot) (typesOnSecondRow ++ sampleKeys [0x1D, 0x26, 0x9D])).map
      (fun s => (s.cursorOf s.visible, s.kbd.saveX, s.kbd.saveY,
        (s.keyboardHandler 0x48 sampleStack).returned.isSome)) = some ((0, 0), 7, 1, false) := by
    decide +kernel
  obtain ⟨s, hs, hv⟩ := Option.map_eq_some_iff.mp hv
  simp only [Prod.mk.injEq] at hv
  obtain ⟨hc, hx, hy, hret⟩ := hv
  refine ⟨s, hs, hc, hx, hy, ?_⟩
  rintro ⟨-, s', hs'⟩
  rw [hs'] at hret
  cases hret

end Up

end Mp3
