import Mathlib.Logic.Function.Basic

/-!
# Translation buffers

A processor keeps copies of what its walks over the tables in memory find: a **buffer**. It loads
and drops copies whenever it likes and does not notice that the tables change; a flush drops all
copies. Code that changes the tables is a list of writes and flushes (`Op`).

A buffer is **coherent** when each copy is what a walk finds now. Then an access goes where the
tables say (`Coherent.access`). `coherent_run` is the rule for code: it leaves the buffer coherent if
it leaves no write without a flush behind it (`dirty`), whatever the processor loads and drops in
between.
-/

namespace Tlb

/-- The copies of a processor, by page. -/
abbrev Buffer (κ α : Type) := κ → Option α

/-- What a processor does by itself. -/
inductive Move (κ : Type) where
  | load (page : κ)
  | drop (page : κ)

/-- What code does to tables. -/
inductive Op (σ : Type) where
  | write (f : σ → σ)
  | flush

variable {σ κ α : Type}

/-- The tables after some operations. -/
def table : List (Op σ) → σ → σ
  | [], t => t
  | .write f :: ops, t => table ops (f t)
  | .flush :: ops, t => table ops t

/-- A write is left without a flush behind it; `b` says whether there was one before. -/
def dirty : Bool → List (Op σ) → Bool
  | b, [] => b
  | _, .write _ :: ops => dirty true ops
  | _, .flush :: ops => dirty false ops

variable [DecidableEq κ] (walk : σ → κ → Option α)

/-- The copies after a move: a load walks the tables. -/
def Buffer.move (t : σ) (c : Buffer κ α) : Move κ → Buffer κ α
  | .load k => Function.update c k (walk t k)
  | .drop k => Function.update c k none

/-- The tables and the copies after some operations. `moves n` are the moves of the processor
between operation `n` and the one before it, and at the end those behind the last one. -/
def run : (Nat → List (Move κ)) → List (Op σ) → σ × Buffer κ α → σ × Buffer κ α
  | moves, [], (t, c) => (t, (moves 0).foldl (Buffer.move walk t) c)
  | moves, .write f :: ops, (t, c) =>
    run (fun n => moves (n + 1)) ops (f t, (moves 0).foldl (Buffer.move walk t) c)
  | moves, .flush :: ops, (t, _) => run (fun n => moves (n + 1)) ops (t, fun _ => none)

/-- Where an access to a page goes. -/
def Buffer.access (t : σ) (c : Buffer κ α) (k : κ) : Option α := (c k).or (walk t k)

/-- The copies are what a walk finds. -/
def Coherent (t : σ) (c : Buffer κ α) : Prop := ∀ k a, c k = some a → walk t k = some a

section Rules

variable {walk} {t : σ} {c : Buffer κ α} {ops ops' : List (Op σ)} {b : Bool}
  {moves : Nat → List (Move κ)}

omit [DecidableEq κ] in
theorem Coherent.access (h : Coherent walk t c) (k : κ) : c.access walk t k = walk t k := by
  unfold Buffer.access
  cases hc : c k with
  | none => rfl
  | some a => exact (h k a hc).symm

omit [DecidableEq κ] in
theorem coherent_empty : Coherent walk t fun _ => none := nofun

theorem Coherent.move (h : Coherent walk t c) (m : Move κ) : Coherent walk t (c.move walk t m) := by
  intro k a hk
  cases m with
  | load j =>
    by_cases hj : k = j
    · rw [hj] at hk ⊢
      rwa [Buffer.move, Function.update_self] at hk
    · rw [Buffer.move, Function.update_of_ne hj] at hk
      exact h k a hk
  | drop j =>
    by_cases hj : k = j
    · rw [hj, Buffer.move, Function.update_self] at hk
      cases hk
    · rw [Buffer.move, Function.update_of_ne hj] at hk
      exact h k a hk

theorem Coherent.foldl_move (h : Coherent walk t c) (ms : List (Move κ)) :
    Coherent walk t (ms.foldl (Buffer.move walk t) c) := by
  induction ms generalizing c with
  | nil => exact h
  | cons m ms ih => exact ih (h.move m)

omit [DecidableEq κ] in
@[simp] theorem table_append (t : σ) : table (ops ++ ops') t = table ops' (table ops t) := by
  induction ops generalizing t with
  | nil => rfl
  | cons op ops ih => cases op <;> exact ih _

omit [DecidableEq κ] in
@[simp] theorem dirty_append (b : Bool) : dirty b (ops ++ ops') = dirty (dirty b ops) ops' := by
  induction ops generalizing b with
  | nil => rfl
  | cons op ops ih => cases op <;> exact ih _

theorem run_fst : (run walk moves ops (t, c)).1 = table ops t := by
  induction ops generalizing moves t c with
  | nil => rfl
  | cons op ops ih => cases op <;> exact ih

/-- **The rule for code.** -/
theorem coherent_run (h : b = false → Coherent walk t c) (hd : dirty b ops = false) :
    Coherent walk (table ops t) (run walk moves ops (t, c)).2 := by
  induction ops generalizing moves b t c with
  | nil => exact (h hd).foldl_move _
  | cons op ops ih =>
    cases op with
    | write f => exact ih (b := true) nofun hd
    | flush => exact ih (b := false) (fun _ => coherent_empty) hd

end Rules

end Tlb
