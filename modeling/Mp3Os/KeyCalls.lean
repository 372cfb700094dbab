import Mp3Os.Erase

/-!
# What a key draws

`keyCalls` are the drawing calls of a key between `beginKey` and `endKey`; the console of the
handler is what they draw (`key_drawn`). So what holds of each call holds of every key.

Every call stays in the page except a `backspace` in the top left corner. A key makes one when it
is Backspace there, with a character to delete, or Up with the saved position out of reach; a
`terminal_write` never does.
-/

namespace Mp3

namespace Kernel

variable (s : Kernel)

/-- The calls of the Up key. -/
def upCalls (st : Stack) : List DrawCall :=
  let fuel := 80 * s.con.screenY + s.con.screenX + 1
  eraseCalls s.paging.videoFrame s.kbd.saveX s.kbd.saveY fuel s.con ++
    if (eraseLine s.paging.videoFrame s.kbd.saveX s.kbd.saveY fuel s.con).2 then
      (printfOut (s.recalledText st) st).chars.map .putc
    else []

/-- The calls of the other keys. -/
def editCalls (scanCode : Nat) : List DrawCall :=
  if s.flags.ctrl ≠ 0 ∧ scanCode = 0x26 then [.clearKb]
  else if scanCode = 0x0E ∧ s.kbd.currIdx ≠ 0 then [.backspace]
  else if scanCode = 0x1C then [.putc (ch '\n')]
  else if isSwitch s.flags scanCode then []
  else if s.kbd.numChars < 127 ∧ 0 < scanCode ∧ scanCode < 0x3B then
    if keyChar s.flags scanCode ≠ 0 then [.putc (keyChar s.flags scanCode)] else []
  else []

/-- The calls of a key. -/
def keyCalls (scanCode : Nat) (st : Stack) : List DrawCall :=
  if (modifierKey s.flags scanCode).isSome then []
  else if scanCode = 0x48 then s.upCalls st
  else s.editCalls scanCode

end Kernel

/-- The calls of keys and `terminal_write`s are inside. -/
def VideoInside (s : Kernel) : Event → Prop
  | .key c st | .keyFault c st _ =>
    AllInside s.beginKey.paging.videoFrame s.beginKey.con (s.beginKey.keyCalls c.toNat st)
  | .write fd buf mem n => (s.writeTarget fd buf).isTerminal →
    AllInside s.paging.videoFrame s.con (((List.range n.toNat).map mem).map .putc)
  | _ => True

/-- There is a cell before the cursor for Backspace to delete, and Up has its saved position in
reach. -/
def KeyRoom (s : Kernel) : Event → Prop
  | .key c _ | .keyFault c .. =>
    (c.toNat = 0x0E → s.kbd.currIdx ≠ 0 → s.cursorOf s.visible ≠ (0, 0)) ∧
    (c.toNat = 0x48 →
      ¬ OutOfReach s.kbd.saveX s.kbd.saveY (s.cursorOf s.visible).1 (s.cursorOf s.visible).2)
  | _ => True

/-! ## The console of a handler -/

section Drawn

variable {s : Kernel} {frame saveX saveY : Nat} {c c' : Console} {calls more : List DrawCall}

theorem drawn_append (hr : draws frame c calls = some c') :
    drawn frame c (calls ++ more) = drawn frame c' more := by
  induction calls generalizing c with
  | nil =>
    cases hr
    rfl
  | cons call calls ih =>
    rw [draws_cons] at hr
    obtain ⟨u, hu, hr⟩ := Option.bind_eq_some_iff.mp hr
    rw [List.cons_append, drawn, hu]
    exact ih hr

/-- The erase loop draws its calls. -/
theorem eraseLine_drawn (fuel : Nat) :
    (eraseLine frame saveX saveY fuel c).1 = drawn frame c (eraseCalls frame saveX saveY fuel c) := by
  induction fuel generalizing c with
  | zero => rfl
  | succ fuel ih =>
    rw [eraseLine, eraseCalls]
    split
    · rw [drawn, show DrawCall.backspace.run frame c = c.backspace frame from rfl]
      cases c.backspace frame with
      | none => rfl
      | some u => exact ih
    · rfl

/-- A loop that ends has drawn all its calls. -/
theorem eraseLine_draws_calls (fuel : Nat) (he : (eraseLine frame saveX saveY fuel c).2 = true) :
    draws frame c (eraseCalls frame saveX saveY fuel c) =
      some (eraseLine frame saveX saveY fuel c).1 := by
  induction fuel generalizing c with
  | zero => cases he
  | succ fuel ih =>
    rw [eraseLine] at he ⊢
    rw [eraseCalls]
    split at he
    · rename_i hcond
      rw [if_pos hcond, if_pos hcond]
      cases hb : c.backspace frame with
      | none =>
        rw [hb] at he
        cases he
      | some u =>
        rw [hb] at he
        rw [draws_cons]
        show (c.backspace frame).bind _ = _
        rw [hb]
        exact ih he
    · rename_i hcond
      rw [if_neg hcond, if_neg hcond]
      rfl

theorem upKey_drawn (st : Stack) :
    (s.upKey st).state.con = drawn s.paging.videoFrame s.con (s.upCalls st) := by
  unfold Kernel.upKey Kernel.upCalls
  dsimp only
  split
  · rename_i he
    rw [drawn_append (eraseLine_draws_calls _ he), drawn_of_draws (draws_putcs _)]
    split <;> rfl
  · rw [List.append_nil]
    exact eraseLine_drawn _

theorem editKey_drawn {scanCode : Nat} (hs : ¬ isSwitch s.flags scanCode) :
    (s.editKey scanCode).state.con =
      drawn s.paging.videoFrame s.con (s.editCalls scanCode) := by
  unfold Kernel.editKey Kernel.editCalls
  rw [if_neg hs, if_neg hs]
  split
  · rfl
  split
  · rw [Kernel.backKey, drawn,
      show DrawCall.backspace.run s.paging.videoFrame s.con =
        s.con.backspace s.paging.videoFrame from rfl]
    cases s.con.backspace s.paging.videoFrame with
    | none => rfl
    | some u => rfl
  split
  · rfl
  split
  · simp only [Kernel.charKey]
    split <;> rfl
  · rfl

/-- **The console of a key is what its calls draw.** -/
theorem key_drawn {scanCode : Nat} (hm : modifierKey s.flags scanCode = none)
    (hs : ¬ isSwitch s.flags scanCode) (st : Stack) :
    (if scanCode = 0x48 then s.upKey st else s.editKey scanCode).state.con =
      drawn s.paging.videoFrame s.con (s.keyCalls scanCode st) := by
  have hkeys : ¬ (modifierKey s.flags scanCode).isSome = true := by
    rw [hm]
    decide
  unfold Kernel.keyCalls
  rw [if_neg hkeys]
  split
  · exact upKey_drawn st
  · exact editKey_drawn hs

end Drawn

/-! ## The calls stay in the page -/

section Inside

variable {s : Kernel}

/-- The calls of Up run to their end exactly if the loop has a cell to end in. -/
theorem upCalls_draws (h : s.con.InRange) (st : Stack) :
    draws s.paging.videoFrame s.con (s.upCalls st) ≠ none ↔
      ∃ q ≤ s.con.pos, Stops s.kbd.saveX s.kbd.saveY q := by
  have hf : s.con.pos < 80 * s.con.screenY + s.con.screenX + 1 := Nat.lt_succ_self _
  unfold Kernel.upCalls
  dsimp only
  by_cases hq : ∃ q ≤ s.con.pos, Stops s.kbd.saveX s.kbd.saveY q
  · obtain ⟨c', hr, he, hcalls⟩ := eraseLine_stops s.paging.videoFrame h hf hq
    rw [he, hcalls, if_pos rfl, draws_append, hr, Option.bind_some, draws_putcs]
    exact iff_of_true (by simp) hq
  · obtain ⟨he, hcalls⟩ := eraseLine_runs_off s.paging.videoFrame h hf hq
    rw [he, hcalls, if_neg (by decide), List.append_nil]
    refine iff_of_false (not_not_intro ?_) hq
    cases hr : draws s.paging.videoFrame s.con (List.replicate (s.con.pos + 1) .backspace) with
    | none => rfl
    | some c' =>
      have hpos := draws_backs_pos h hr
      omega

/-- Those of the other keys, unless it is Backspace in the corner. -/
theorem editCalls_draws (scanCode : Nat) :
    draws s.paging.videoFrame s.con (s.editCalls scanCode) ≠ none ↔
      (scanCode = 0x0E → s.kbd.currIdx ≠ 0 → ¬ (s.con.screenX = 0 ∧ s.con.screenY = 0)) := by
  have hone : ∀ call : DrawCall, draws s.paging.videoFrame s.con [call] =
      call.run s.paging.videoFrame s.con := fun call => by
    rw [draws_cons]
    cases call.run s.paging.videoFrame s.con <;> rfl
  unfold Kernel.editCalls
  by_cases hback : scanCode = 0x0E ∧ s.kbd.currIdx ≠ 0
  · have hctrl : ¬ (s.flags.ctrl ≠ 0 ∧ scanCode = 0x26) := by omega
    rw [if_neg hctrl, if_pos hback, hone, Ne, run_eq_none_iff, eq_self, true_and]
    exact ⟨fun h _ _ => h, fun h => h hback.1 hback.2⟩
  · refine iff_of_true ?_ fun h14 hidx => absurd ⟨h14, hidx⟩ hback
    rw [if_neg hback]
    split_ifs
    all_goals first | (rw [hone]; exact nofun) | exact nofun

/-- Whether the calls of a key stay in the page. -/
theorem keyCalls_inside (h : s.DriversOk) (c : Nat) (st : Stack) :
    AllInside s.beginKey.paging.videoFrame s.beginKey.con (s.beginKey.keyCalls c st) ↔
      (c = 0x0E → s.kbd.currIdx ≠ 0 → s.cursorOf s.visible ≠ (0, 0)) ∧
      (c = 0x48 → ¬ OutOfReach s.kbd.saveX s.kbd.saveY (s.cursorOf s.visible).1
        (s.cursorOf s.visible).2) := by
  have hin := h.cursors.beginKey.con
  obtain ⟨hx, hy⟩ := beginKey_cursor h.cursors
  rw [allInside_iff hin]
  unfold Kernel.keyCalls
  split
  · -- a modifier key is neither of the two
    rename_i hm
    have hne : c ≠ 0x0E ∧ c ≠ 0x48 := by
      constructor
      · rintro rfl
        cases hm
      · rintro rfl
        cases hm
    exact iff_of_true nofun ⟨fun h14 => absurd h14 hne.1, fun h72 => absurd h72 hne.2⟩
  split
  · rename_i hup
    rw [upCalls_draws hin, ← hx, ← hy]
    have hstop : (∃ q ≤ s.beginKey.con.pos, Stops s.kbd.saveX s.kbd.saveY q) ↔ _ :=
      stops_iff h.save.1 hin.x
    refine hstop.trans ⟨fun hr => ⟨fun h14 => by omega, fun _ => hr⟩, fun hr => hr.2 hup⟩
  · rename_i hup
    rw [editCalls_draws, ← Prod.mk.eta (p := s.cursorOf s.visible), ← hx, ← hy]
    constructor
    · intro hr
      exact ⟨fun h14 hidx he => hr h14 hidx (Prod.mk.inj he), fun h72 => absurd h72 hup⟩
    · intro hr h14 hidx he
      exact hr.1 h14 hidx (Prod.ext he.1 he.2)

/-- **Video writes stay on the screen** along a run exactly if there is room for each Backspace and
each Up. -/
theorem videoInside_iff (b : BootIn) (es : List Event) :
    kernel.Along VideoInside (boot b) es ↔ kernel.Along KeyRoom (boot b) es := by
  refine Lts.along_congr (I := Kernel.DriversOk) (fun _ _ _ h hs => driversOk_step h hs) ?_
    (driversOk_boot b)
  intro s e h
  cases e with
  | key c st => exact keyCalls_inside h c.toNat st
  | keyFault c st xs => exact keyCalls_inside h c.toNat st
  | write fd buf mem n =>
    refine iff_of_true (fun _ => ?_) trivial
    rw [allInside_iff h.cursors.con, draws_putcs]
    exact nofun
  | _ => exact Iff.rfl

/-- The line `a` is typed in the second row, Ctrl+L clears the screen, and Up stores before the
page. -/
theorem up_leaves_page :
    ¬ kernel.Along VideoInside (boot sampleBoot) (typesOnSecondRow ++ sampleKeys [0x1D, 0x26, 0x9D] ++
      [.keyFault 0x48 sampleStack [sampleExec]]) := by
  have hv : (kernel.run (boot sampleBoot) (typesOnSecondRow ++ sampleKeys [0x1D, 0x26, 0x9D])).map
      (fun s => ((s.beginKey.con.screenX, s.beginKey.con.screenY),
        (s.beginKey.keyCalls 0x48 sampleStack).head?)) = some ((0, 0), some .backspace) := by
    decide +kernel
  obtain ⟨s, hs, hv⟩ := Option.map_eq_some_iff.mp hv
  obtain ⟨hcur, hcall⟩ := Prod.mk.inj hv
  obtain ⟨hx, hy⟩ := Prod.mk.inj hcur
  intro ha
  have hin : AllInside s.beginKey.paging.videoFrame s.beginKey.con
      (s.beginKey.keyCalls 0x48 sampleStack) := ha.at_event hs
  obtain ⟨calls, hcalls⟩ : ∃ calls, s.beginKey.keyCalls 0x48 sampleStack = .backspace :: calls :=
    List.head?_eq_some_iff.mp hcall
  rw [hcalls] at hin
  -- the first byte that this `backspace` stores is at `VIDEO - 2`
  have hstore := hin.1.1 (2 * (80 * s.beginKey.con.screenY + s.beginKey.con.screenX - 1))
    (by simp [DrawCall.stores, cellStores])
  rw [hx, hy] at hstore
  exact absurd hstore.1 (by decide)

end Inside

end Mp3
