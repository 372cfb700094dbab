import Mp3Os.Keyboards
import Mp3Os.Lib.Tape

/-!
# The calls that draw

A handler draws by calls of `putc`, `backspace`, `clear_kb` and `clear`. `DrawCall.stores` lists
the bytes that a call stores, as offsets from `VIDEO`, and `Inside` says that they are in the page
and that the cursor is on the screen afterwards.

A call is inside exactly if it does not fault, and only a `backspace` in the top left corner
faults. So a sequence of calls is inside exactly if it runs to its end (`allInside_iff`).
-/

namespace Mp3

/-- A call of a function that draws. -/
inductive DrawCall where
  | putc (b : UInt8)
  | backspace
  | clearKb
  | clear
  deriving DecidableEq

/-- The bytes of cell `i`. -/
def cellStores (i : Int) : List Int := [2 * i, 2 * i + 1]

/-- A loop that stores `n` cells from cell `i` on. -/
def rowStores (i n : Nat) : List Int := (List.range n).flatMap fun j => cellStores (i + j : Nat)

/-- The loop of `clear` and `clear_kb`. -/
def blankStores : List Int := rowStores 0 2000

/-- A `memmove` of `n` bytes to `VIDEO`. -/
def moveStores (n : Nat) : List Int := (List.range n).map Int.ofNat

/-- The newline branch of `putc`: in the last row the `memmove` and the loop that blanks it. -/
def newlineStores (y : Nat) : List Int :=
  if y = 24 then moveStores 3840 ++ rowStores (80 * y) 80 else []

namespace DrawCall

variable (frame : Nat) (c : Console)

/-- What the call does; `none` when it faults. -/
def run : DrawCall → Option Console
  | putc b => some (c.putc frame b)
  | backspace => c.backspace frame
  | clearKb => some (c.clearKb frame)
  | clear => some (c.clear frame)

/-- The offsets from `VIDEO` of the bytes that the call stores. -/
def stores : DrawCall → List Int
  | putc b =>
    if b = ch '\n' ∨ b = ch '\r' then newlineStores c.screenY
    else if c.screenY = 24 ∧ c.screenX = 79 then
      cellStores (80 * c.screenY + c.screenX : Nat) ++ newlineStores c.screenY
    else cellStores (80 * c.screenY + c.screenX : Nat)
  | backspace => cellStores (80 * c.screenY + c.screenX - 1)
  | clearKb => blankStores
  | clear => blankStores ++ blankStores

/-- The call stores inside the page and leaves the cursor on the screen. -/
def Inside (call : DrawCall) : Prop :=
  (∀ o ∈ call.stores c, 0 ≤ o ∧ o < 4000) ∧ ∀ c', call.run frame c = some c' → c'.InRange

end DrawCall

section Sequences

variable (frame : Nat)

/-- Calls in turn; `none` when one of them faults. -/
def draws (c : Console) (calls : List DrawCall) : Option Console :=
  calls.foldlM (fun c call => call.run frame c) c

/-- Where calls in turn get to: to the end or to the one that faults. -/
def drawn : Console → List DrawCall → Console
  | c, [] => c
  | c, call :: calls =>
    match call.run frame c with
    | none => c
    | some c' => drawn c' calls

/-- Every call of a sequence is inside. -/
def AllInside : Console → List DrawCall → Prop
  | _, [] => True
  | c, call :: calls =>
    call.Inside frame c ∧ ∀ c', call.run frame c = some c' → AllInside c' calls

end Sequences

/-! ## One call -/

section Call

variable {frame : Nat} {c c' : Console} {call : DrawCall}

theorem mem_cellStores {i o : Int} : o ∈ cellStores i ↔ 2 * i ≤ o ∧ o < 2 * i + 2 := by
  simp only [cellStores, List.mem_cons, List.not_mem_nil, or_false]
  omega

theorem mem_rowStores {i n : Nat} {o : Int} :
    o ∈ rowStores i n ↔ 2 * (i : Int) ≤ o ∧ o < 2 * (i + n : Nat) := by
  simp only [rowStores, List.mem_flatMap, List.mem_range, mem_cellStores]
  constructor
  · rintro ⟨j, hj, ho⟩
    omega
  · intro ho
    exact ⟨(o / 2).toNat - i, by omega, by omega⟩

theorem mem_moveStores {n : Nat} {o : Int} : o ∈ moveStores n ↔ 0 ≤ o ∧ o < n := by
  simp only [moveStores, List.mem_map, List.mem_range, Int.ofNat_eq_natCast]
  constructor
  · rintro ⟨i, hi, rfl⟩
    omega
  · intro ho
    exact ⟨o.toNat, by omega, by omega⟩

theorem mem_blankStores {o : Int} : o ∈ blankStores ↔ 0 ≤ o ∧ o < 4000 := by
  rw [blankStores, mem_rowStores]
  rfl

theorem mem_newlineStores {y : Nat} {o : Int} :
    o ∈ newlineStores y ↔ y = 24 ∧ 0 ≤ o ∧ o < 4000 := by
  unfold newlineStores
  split
  · rw [List.mem_append, mem_moveStores, mem_rowStores]
    omega
  · rename_i hy
    simp [hy]

/-- A call from a cursor on the screen faults only in the top left corner. -/
theorem run_eq_none_iff :
    call.run frame c = none ↔ call = .backspace ∧ c.screenX = 0 ∧ c.screenY = 0 := by
  cases call with
  | backspace =>
    simp only [DrawCall.run, true_and]
    unfold Console.backspace
    split
    · simp_all
    · dsimp only
      split <;> simp_all
  | _ => simp [DrawCall.run]

/-- A call that runs keeps the cursor on the screen. -/
theorem run_draws (h : c.InRange) (hr : call.run frame c = some c') : Console.Draws frame c c' := by
  cases call with
  | putc b =>
    cases hr
    exact Console.putc_draws h b
  | backspace => exact Console.backspace_draws h hr
  | clearKb =>
    cases hr
    exact Console.clearKb_draws
  | clear =>
    cases hr
    exact Console.clear_draws

/-- **A call is inside exactly if it does not fault.** -/
theorem inside_iff (h : c.InRange) : call.Inside frame c ↔ call.run frame c ≠ none := by
  have hx := h.x
  have hy := h.y
  have hrange : ∀ c', call.run frame c = some c' → c'.InRange :=
    fun c' hr => (run_draws h hr).inRange
  rw [DrawCall.Inside, and_iff_left hrange, Ne, run_eq_none_iff]
  cases call with
  | putc b =>
    simp only [reduceCtorEq, false_and, not_false_eq_true, iff_true, DrawCall.stores]
    intro o ho
    split_ifs at ho
    · exact (mem_newlineStores.mp ho).2
    · rw [List.mem_append, mem_cellStores, mem_newlineStores] at ho
      omega
    · rw [mem_cellStores] at ho
      omega
  | backspace =>
    simp only [DrawCall.stores, true_and, mem_cellStores]
    constructor
    · intro hin hcorner
      have := hin (2 * (80 * c.screenY + c.screenX - 1)) (by omega)
      omega
    · intro hcorner o ho
      omega
  | clearKb =>
    simp only [reduceCtorEq, false_and, not_false_eq_true, iff_true]
    exact fun o ho => mem_blankStores.mp ho
  | clear =>
    simp only [reduceCtorEq, false_and, not_false_eq_true, iff_true]
    intro o ho
    exact (List.mem_append.mp ho).elim mem_blankStores.mp mem_blankStores.mp

section Frame

variable {a : Nat}

/-- Address `a` is none of the stored bytes. -/
def Spares (frame : Nat) (os : List Int) (a : Nat) : Prop :=
  ∀ o ∈ os, (a : Int) ≠ (frame * 4096 : Nat) + o

theorem putCell_frame {i : Nat} (b : UInt8) (h : Spares frame (cellStores i) a) :
    (c.putCell frame i b).vram a = c.vram a := by
  have h0 := h (2 * i) (mem_cellStores.mpr (by omega))
  have h1 := h (2 * i + 1) (mem_cellStores.mpr (by omega))
  simp only [Console.putCell]
  rw [if_neg (by omega), if_neg (by omega)]

/-- A page of which every byte is stored. -/
theorem outside_of_spares {os : List Int} (hos : ∀ o : Int, 0 ≤ o ∧ o < 4000 → o ∈ os)
    (h : Spares frame os a) : ¬ (frame * 4096 ≤ a ∧ a < frame * 4096 + 4000) := by
  intro hin
  exact h (a - (frame * 4096 : Nat)) (hos _ (by omega)) (by omega)

theorem newline_frame (h : Spares frame (newlineStores c.screenY) a) :
    (c.newline frame).vram a = c.vram a := by
  unfold Console.newline
  split
  · rename_i hy
    have hout := outside_of_spares (fun o ho => mem_newlineStores.mpr ⟨hy, ho⟩) h
    have htop : ¬ (frame * 4096 ≤ a ∧ a < frame * 4096 + 3840) := fun hin =>
      hout ⟨hin.1, by omega⟩
    have hlast : ¬ (frame * 4096 + 3840 ≤ a ∧ a < frame * 4096 + 4000) := fun hin =>
      hout ⟨by omega, hin.2⟩
    simp only [Console.scroll]
    rw [if_neg htop, if_neg hlast]
  · rfl

theorem blank_frame (h : Spares frame blankStores a) : (c.blank frame).vram a = c.vram a := by
  have hout := outside_of_spares (fun o ho => mem_blankStores.mpr ho) h
  simp only [Console.blank]
  rw [if_neg hout]

/-- A byte of video memory that a call does not store stays as it is. -/
theorem run_frame (hr : call.run frame c = some c') (ha : Spares frame (call.stores c) a) :
    c'.vram a = c.vram a := by
  cases call with
  | putc b =>
    cases hr
    unfold Console.putc
    simp only [DrawCall.stores] at ha
    split
    · rename_i hb
      rw [if_pos hb] at ha
      exact newline_frame ha
    · rename_i hb
      rw [if_neg hb] at ha
      split
      · rename_i hlast
        rw [if_pos hlast] at ha
        have hcell := putCell_frame (c := c) b fun o ho => ha o (List.mem_append_left _ ho)
        refine Eq.trans ?_ hcell
        exact newline_frame fun o ho => ha o (List.mem_append_right _ ho)
      · rename_i hlast
        rw [if_neg hlast] at ha
        exact putCell_frame b ha
  | backspace =>
    have hne : ¬ (c.screenX = 0 ∧ c.screenY = 0) := by
      intro hcorner
      rw [run_eq_none_iff.mpr ⟨rfl, hcorner⟩] at hr
      cases hr
    have hcast : (80 * c.screenY + c.screenX - 1 : Int) = (80 * c.screenY + c.screenX - 1 : Nat) := by
      omega
    simp only [DrawCall.stores, hcast] at ha
    have hcell := putCell_frame (c := c) 32 ha
    simp only [DrawCall.run, Console.backspace] at hr
    rw [if_neg hne] at hr
    split at hr
    · cases hr
      exact hcell
    · cases hr
      exact hcell
  | clearKb =>
    cases hr
    exact blank_frame ha
  | clear =>
    cases hr
    have hblank : Spares frame blankStores a := fun o ho => ha o (List.mem_append_left _ ho)
    exact (blank_frame (c := c.blank frame) hblank).trans (blank_frame hblank)

end Frame

end Call

/-! ## Sequences of calls -/

section Sequence

variable {frame : Nat} {c c' : Console} {calls more : List DrawCall}

theorem draws_cons (call : DrawCall) :
    draws frame c (call :: calls) = (call.run frame c).bind fun c' => draws frame c' calls := rfl

theorem draws_append :
    draws frame c (calls ++ more) = (draws frame c calls).bind fun c' => draws frame c' more :=
  List.foldlM_append

/-- Calls that all run draw on the page. -/
theorem draws_draws (h : c.InRange) (hr : draws frame c calls = some c') :
    Console.Draws frame c c' := by
  induction calls generalizing c with
  | nil =>
    cases hr
    exact .refl h
  | cons call calls ih =>
    rw [draws_cons] at hr
    obtain ⟨u, hu, hr⟩ := Option.bind_eq_some_iff.mp hr
    have hd := run_draws h hu
    exact hd.trans (ih hd.inRange hr)

theorem drawn_of_draws (hr : draws frame c calls = some c') : drawn frame c calls = c' := by
  induction calls generalizing c with
  | nil =>
    cases hr
    rfl
  | cons call calls ih =>
    rw [draws_cons] at hr
    obtain ⟨u, hu, hr⟩ := Option.bind_eq_some_iff.mp hr
    rw [drawn, hu]
    exact ih hr

/-- `putc` never faults. -/
theorem draws_putcs (bs : List UInt8) :
    draws frame c (bs.map .putc) = some (c.putcs frame bs) := by
  induction bs generalizing c with
  | nil => rfl
  | cons b bs ih => exact ih

/-- **All calls are inside exactly if they run to the end.** -/
theorem allInside_iff (h : c.InRange) : AllInside frame c calls ↔ draws frame c calls ≠ none := by
  induction calls generalizing c with
  | nil => simp [AllInside, draws]
  | cons call calls ih =>
    rw [AllInside, inside_iff h, draws_cons]
    cases hr : call.run frame c with
    | none => simp
    | some u =>
      simp only [ne_eq, reduceCtorEq, not_false_eq_true, true_and, Option.some.injEq,
        forall_eq', Option.bind_some]
      exact ih (run_draws h hr).inRange

end Sequence

/-! ## Steps back -/

/-- The cell at a position. -/
def cellOf (p : Nat × Nat) : Nat := 80 * p.2 + p.1

/-- The cell under the cursor. -/
def Console.pos (c : Console) : Nat := 80 * c.screenY + c.screenX

section Backs

variable {frame : Nat} {c c' : Console}

theorem Console.InRange.pos_lt (h : c.InRange) : c.pos < 2000 := by
  have hx := h.x
  have hy := h.y
  unfold Console.pos
  omega

theorem Console.InRange.eq_of_pos (h : c.InRange) {x y : Nat} (hx : x < 80)
    (hp : c.pos = 80 * y + x) : c.screenX = x ∧ c.screenY = y := by
  have hx' := h.x
  unfold Console.pos at hp
  omega

/-- A `backspace` moves back by one cell. -/
theorem backspace_pos (h : c.InRange) (hb : c.backspace frame = some c') : c'.pos + 1 = c.pos := by
  have hx := h.x
  unfold Console.backspace at hb
  split at hb
  · cases hb
  · split at hb
    · cases hb
      simp only [Console.pos, Console.updateCursor, Console.putCell]
      omega
    · cases hb
      simp only [Console.pos, Console.updateCursor, Console.putCell]
      omega

theorem backspace_isSome (frame : Nat) (hp : c.pos ≠ 0) : ∃ c', c.backspace frame = some c' := by
  have hne : ¬ (c.screenX = 0 ∧ c.screenY = 0) := by
    unfold Console.pos at hp
    omega
  unfold Console.backspace
  rw [if_neg hne]
  dsimp only
  split
  · exact ⟨_, rfl⟩
  · exact ⟨_, rfl⟩

/-- Steps back that do not fault. -/
theorem draws_backs_pos (h : c.InRange) {n : Nat}
    (hr : draws frame c (List.replicate n .backspace) = some c') : c'.pos + n = c.pos := by
  induction n generalizing c with
  | zero =>
    cases hr
    rfl
  | succ n ih =>
    rw [List.replicate_succ, draws_cons] at hr
    obtain ⟨u, hu, hr⟩ := Option.bind_eq_some_iff.mp hr
    have hpos := backspace_pos h hu
    have hn := ih (Console.backspace_draws h hu).inRange hr
    omega

/-- Steps back, as far as the top left corner. -/
theorem draws_backs (frame : Nat) (h : c.InRange) {n : Nat} (hn : n ≤ c.pos) :
    ∃ c', draws frame c (List.replicate n .backspace) = some c' ∧
      ∀ a, c'.plane frame a = (c.plane frame a).backs (Console.planeByte a 32) n := by
  induction n generalizing c with
  | zero => exact ⟨c, rfl, fun _ => rfl⟩
  | succ n ih =>
    obtain ⟨u, hu⟩ := backspace_isSome frame (c := c) (by omega)
    have hp := backspace_pos h hu
    obtain ⟨c', hr, hplane⟩ := ih (Console.backspace_draws h hu).inRange (by omega)
    refine ⟨c', ?_, fun a => ?_⟩
    · rw [List.replicate_succ, draws_cons]
      show (c.backspace frame).bind _ = _
      rw [hu]
      exact hr
    · rw [hplane, Console.plane_backspace hu]
      rfl

end Backs

end Mp3
