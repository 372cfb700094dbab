import Mp3Os.Lib.Lts

/-!
# Programs that call a system

A **client** is a sequential program that makes calls `Q` and gets results `R`: where it is, the call
it makes there, and where it goes on with a result. A **service** says what a call does to the system,
and that a call may return later (`wake`).

`beside` is a client of a system whose other parties go on between its calls, in any order; `log` has
the calls it has made, each with the state it was made in. `beside_inv` is the rule for it, rely and
guarantee: the client keeps the invariant when a call returns, when it blocks and when it wakes, and
so does every step of the others that the guard allows. `beside_returns` is the rule for a client
whose calls all return.
-/

/-- A sequential program: `call` is the call it makes next, none when it has ended. -/
structure Client (Q R : Type) where
  State : Type
  call : State → Option Q
  resume : State → R → State

/-- What a call does: it returns a result or blocks (no result), or it cannot be made now. A call that
has blocked returns once there is a `wake`. -/
structure Service (σ ι Q R : Type) where
  serve : σ → ι → Q → Option (Option R × σ)
  wake : σ → Q → Option R

/-- A client and the system. -/
structure Session (σ Q S : Type) where
  sys : σ
  prog : S
  /-- Its call has blocked. -/
  waiting : Bool
  log : List (σ × Q)

/-- Who goes on: the client, with what its call takes from the machine, or something else. -/
inductive Move (ι ε : Type) where
  | own (i : ι)
  | other (e : ε)

/-- The client begins. -/
def Session.start {σ Q S : Type} (s : σ) (p : S) : Session σ Q S := ⟨s, p, false, []⟩

namespace Client

variable {σ ι ε Q R : Type} (C : Client Q R) (V : Service σ ι Q R) (M : Lts σ ε)
  (O : σ → ε → Prop) [∀ s e, Decidable (O s e)]

/-- The next step of the client. -/
def advance (x : Session σ Q C.State) (i : ι) : Option (Session σ Q C.State) :=
  (C.call x.prog).bind fun q =>
    if x.waiting then
      (V.wake x.sys q).map fun r => { x with prog := C.resume x.prog r, waiting := false }
    else
      (V.serve x.sys i q).map fun p =>
        ⟨p.2, p.1.elim x.prog (C.resume x.prog), p.1.isNone, x.log ++ [(x.sys, q)]⟩

/-- The client beside others, whose events `O` allows. -/
def beside : Lts (Session σ Q C.State) (Move ι ε) where
  step x
    | .own i => C.advance V x i
    | .other e => if O x.sys e then (M.step x.sys e).map fun s => { x with sys := s } else none

variable {C V M O} {x y : Session σ Q C.State} {i : ι} {e : ε}

theorem beside_other : (C.beside V M O).step x (.other e) = some y ↔
    O x.sys e ∧ ∃ s, M.step x.sys e = some s ∧ y = { x with sys := s } := by
  simp only [beside]
  split
  · rename_i h
    simp only [h, true_and, Option.map_eq_some_iff]
    exact exists_congr fun s => and_congr_right fun _ => eq_comm
  · rename_i h
    simp [h]

/-- **The rule for a client beside others.** -/
theorem beside_inv {I : Session σ Q C.State → Prop} {G : Session σ Q C.State → Move ι ε → Prop}
    {ms : List (Move ι ε)}
    (hret : ∀ s p log i q r s', I ⟨s, p, false, log⟩ → C.call p = some q →
      V.serve s i q = some (some r, s') → I ⟨s', C.resume p r, false, log ++ [(s, q)]⟩)
    (hblock : ∀ s p log i q s', I ⟨s, p, false, log⟩ → C.call p = some q →
      V.serve s i q = some (none, s') → I ⟨s', p, true, log ++ [(s, q)]⟩)
    (hwake : ∀ s p log q r, I ⟨s, p, true, log⟩ → C.call p = some q → V.wake s q = some r →
      I ⟨s, C.resume p r, false, log⟩)
    (hother : ∀ x e s', I x → G x (.other e) → O x.sys e → M.step x.sys e = some s' →
      I { x with sys := s' })
    (hi : I x) (hg : (C.beside V M O).Along G x ms) (hr : (C.beside V M O).run x ms = some y) :
    I y := by
  refine Lts.run_inv (fun x m y hx hG hs => ?_) hi hg hr
  cases m with
  | other e =>
    obtain ⟨ho, s', hs', rfl⟩ := beside_other.mp hs
    exact hother x e s' hx hG ho hs'
  | own i =>
    obtain ⟨s, p, waiting, log⟩ := x
    obtain ⟨q, hq, hs⟩ := Option.bind_eq_some_iff.mp hs
    cases waiting with
    | true =>
      obtain ⟨r, hr, rfl⟩ := Option.map_eq_some_iff.mp hs
      exact hwake s p log q r hx hq hr
    | false =>
      obtain ⟨⟨r, s'⟩, hr, rfl⟩ := Option.map_eq_some_iff.mp hs
      cases r with
      | none => exact hblock s p log i q s' hx hq hr
      | some r => exact hret s p log i q r s' hx hq hr

section Returns

variable {T : σ → Prop} {I : Session σ Q C.State → Prop}
  {G : Session σ Q C.State → Move ι ε → Prop} {ms : List (Move ι ε)} {s s' : σ} {p : C.State}
  {log : List (σ × Q)} {q : Q} {r : R}

/-- A call that returns. -/
theorem beside_own (hq : C.call p = some q) (hv : V.serve s i q = some (some r, s')) :
    (C.beside V M O).step ⟨s, p, false, log⟩ (.own i) =
      some ⟨s', C.resume p r, false, log ++ [(s, q)]⟩ := by
  simp [beside, advance, hq, hv]

/-- It is one call more in the log. -/
theorem beside_turn (hq : C.call p = some q) (hv : V.serve s i q = some (some r, s')) :
    ∃ z, (C.beside V M O).step ⟨s, p, false, log⟩ (.own i) = some z ∧
      z.log.length = log.length + 1 :=
  ⟨_, beside_own hq hv, by simp⟩

/-- **The rule for a client whose calls return** whenever it is its turn (`T`). -/
theorem beside_returns (hturn : ∀ {s i q u}, V.serve s i q = some u → T s)
    (hwait : ∀ {x}, I x → x.waiting = false)
    (hserve : ∀ s p log i q, I ⟨s, p, false, log⟩ → C.call p = some q → T s →
      ∃ r s', V.serve s i q = some (some r, s') ∧ I ⟨s', C.resume p r, false, log ++ [(s, q)]⟩)
    (hother : ∀ x e s', I x → G x (.other e) → O x.sys e → M.step x.sys e = some s' →
      I { x with sys := s' })
    (hi : I x) (hg : (C.beside V M O).Along G x ms) (hr : (C.beside V M O).run x ms = some y) :
    I y := by
  refine beside_inv ?_ ?_ ?_ hother hi hg hr
  · intro s p log i q r s' hi hq hv
    obtain ⟨r', u, hu, h⟩ := hserve s p log i q hi hq (hturn hv)
    rw [hu] at hv
    cases hv
    exact h
  · intro s p log i q s' hi hq hv
    obtain ⟨r', u, hu, -⟩ := hserve s p log i q hi hq (hturn hv)
    rw [hu] at hv
    cases hv
  · intro s p log q r hi
    cases hwait hi

end Returns

end Client
