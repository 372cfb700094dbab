/-!
# Labelled transition systems and the rules for their runs

A **system** is a partial step function: `step s e = some s'` when the event `e` can happen in
`s` and then leads to `s'`. A run is a list of events. The proofs over all runs are by one of
these rules:

* `run_inv`: an invariant that every step keeps, where the step may assume a **guard**
  (`Along G`: every event of the run happens in a state in which `G` allows it).
* `always_iff_along`: when each step keeps `P` exactly if the guard allowed the event, `P` holds
  in every state of a run exactly if the guard holds along it.
* `along_congr`: guards that agree under an invariant hold along the same runs, and
  `along_iff_of_sim` the same for two systems whose states stay related.

`restrict` keeps some of the events, `both` runs two copies of a system in lockstep, and
`withGhost` adds a history variable that the steps update and never read.
-/

/-- A system: the states `σ`, the events `ε`, and what an event does. -/
structure Lts (σ ε : Type) where
  step : σ → ε → Option σ

namespace Lts

variable {σ ε γ : Type} (M : Lts σ ε)

/-- The state after the events of a run, if they all can happen. -/
def run : σ → List ε → Option σ
  | s, [] => some s
  | s, e :: es => (M.step s e).bind fun s' => run s' es

/-- Every event of the run happens in a state in which `G` allows it. -/
def Along (G : σ → ε → Prop) : σ → List ε → Prop
  | _, [] => True
  | s, e :: es => G s e ∧ ∀ s', M.step s e = some s' → Along G s' es

/-- `P` holds in every state of the run, the first one included. -/
def Always (P : σ → Prop) : σ → List ε → Prop
  | s, [] => P s
  | s, e :: es => P s ∧ ∀ s', M.step s e = some s' → Always P s' es

variable {M} {G : σ → ε → Prop} {P I : σ → Prop} {s s' : σ} {e : ε} {es fs : List ε}

theorem along_cons_none (h : M.step s e = none) : M.Along G s (e :: es) ↔ G s e := by
  simp [Along, h]

theorem along_cons_some (h : M.step s e = some s') :
    M.Along G s (e :: es) ↔ G s e ∧ M.Along G s' es := by
  simp [Along, h]

/-- A guard that can be decided can be decided along a run. -/
instance decidableAlong [∀ s e, Decidable (G s e)] : ∀ s es, Decidable (M.Along G s es)
  | _, [] => isTrue trivial
  | s, e :: es =>
    match h : M.step s e with
    | none => decidable_of_iff _ (along_cons_none h).symm
    | some u =>
      have := decidableAlong u es
      decidable_of_iff _ (along_cons_some h).symm

@[simp] theorem run_nil : M.run s [] = some s := rfl

theorem run_cons : M.run s (e :: es) = some s' ↔
    ∃ u, M.step s e = some u ∧ M.run u es = some s' := by
  simp [run, Option.bind_eq_some_iff]

theorem run_append : M.run s (es ++ fs) = some s' ↔
    ∃ u, M.run s es = some u ∧ M.run u fs = some s' := by
  induction es generalizing s with
  | nil => simp
  | cons e es ih =>
    simp only [List.cons_append, run_cons, ih]
    constructor
    · rintro ⟨u, hu, v, hv, hr⟩
      exact ⟨v, ⟨u, hu, hv⟩, hr⟩
    · rintro ⟨v, ⟨u, hu, hv⟩, hr⟩
      exact ⟨u, hu, v, hv, hr⟩

/-- **The refinement rule.** If each step of `M` is a run of `N`, so is each run. -/
theorem run_flatMap {τ δ : Type} {N : Lts τ δ} {f : σ → τ} {g : ε → List δ}
    (hstep : ∀ s e s', M.step s e = some s' → N.run (f s) (g e) = some (f s'))
    (hr : M.run s es = some s') : N.run (f s) (es.flatMap g) = some (f s') := by
  induction es generalizing s with
  | nil => cases hr; rfl
  | cons e es ih =>
    obtain ⟨u, hu, hr⟩ := run_cons.mp hr
    rw [List.flatMap_cons]
    exact run_append.mpr ⟨f u, hstep s e u hu, ih hr⟩

theorem Along.mono {H : σ → ε → Prop} (h : ∀ s e, G s e → H s e) (ha : M.Along G s es) :
    M.Along H s es := by
  induction es generalizing s with
  | nil => trivial
  | cons e es ih => exact ⟨h _ _ ha.1, fun u hu => ih (ha.2 u hu)⟩

theorem along_append : M.Along G s (es ++ fs) ↔
    M.Along G s es ∧ ∀ u, M.run s es = some u → M.Along G u fs := by
  induction es generalizing s with
  | nil => simp [Along]
  | cons e es ih =>
    simp only [List.cons_append, Along, ih, run_cons]
    constructor
    · rintro ⟨hg, h⟩
      exact ⟨⟨hg, fun u hu => (h u hu).1⟩, fun v ⟨u, hu, hv⟩ => (h u hu).2 v hv⟩
    · rintro ⟨⟨hg, h⟩, ha⟩
      exact ⟨hg, fun u hu => ⟨h u hu, fun v hv => ha v ⟨u, hu, hv⟩⟩⟩

/-- Along a run that another system refines, so do the guards of that one. -/
theorem along_flatMap {τ δ : Type} {N : Lts τ δ} {f : σ → τ} {g : ε → List δ} {H : τ → δ → Prop}
    (hstep : ∀ s e s', M.step s e = some s' → N.run (f s) (g e) = some (f s'))
    (hguard : ∀ s e, G s e → N.Along H (f s) (g e)) (ha : M.Along G s es)
    (hr : M.run s es = some s') : N.Along H (f s) (es.flatMap g) := by
  induction es generalizing s with
  | nil => trivial
  | cons e es ih =>
    obtain ⟨u, hu, hr⟩ := run_cons.mp hr
    rw [List.flatMap_cons]
    refine along_append.mpr ⟨hguard s e ha.1, fun v hv => ?_⟩
    rw [hstep s e u hu] at hv
    cases hv
    exact ih (ha.2 u hu) hr

/-- A guard that holds along a run holds at each event of it. -/
theorem Along.at_event (ha : M.Along G s (es ++ e :: fs)) (hr : M.run s es = some s') : G s' e :=
  ((along_append.mp ha).2 s' hr).1

/-- A guard that looks at the event alone holds along a run of such events. -/
theorem along_of_mem {A : ε → Prop} (h : ∀ e ∈ es, A e) : M.Along (fun _ e => A e) s es := by
  induction es generalizing s with
  | nil => trivial
  | cons e es ih =>
    exact ⟨h e (by simp), fun u _ => ih fun e' he' => h e' (by simp [he'])⟩

/-- In a system in which every event can happen, every run can be completed. -/
theorem run_total (h : ∀ s e, ∃ s', M.step s e = some s') (s : σ) (es : List ε) :
    ∃ s', M.run s es = some s' := by
  induction es generalizing s with
  | nil => exact ⟨s, rfl⟩
  | cons e es ih =>
    obtain ⟨u, hu⟩ := h s e
    obtain ⟨s', hs'⟩ := ih u
    exact ⟨s', run_cons.mpr ⟨u, hu, hs'⟩⟩

/-- Along a run that can be completed, such a guard holds exactly if it allows all its events. -/
theorem along_iff_mem {A : ε → Prop} (hr : M.run s es = some s') :
    M.Along (fun _ e => A e) s es ↔ ∀ e ∈ es, A e := by
  refine ⟨fun ha => ?_, along_of_mem⟩
  induction es generalizing s with
  | nil => exact nofun
  | cons e es ih =>
    obtain ⟨u, hu, hr⟩ := run_cons.mp hr
    exact List.forall_mem_cons.mpr ⟨ha.1, ih hr (ha.2 u hu)⟩

/-- **The invariant rule.** -/
theorem run_inv (hstep : ∀ s e s', I s → G s e → M.step s e = some s' → I s')
    (hi : I s) (hg : M.Along G s es) (hr : M.run s es = some s') : I s' := by
  induction es generalizing s with
  | nil => cases hr; exact hi
  | cons e es ih =>
    obtain ⟨u, hu, hr⟩ := run_cons.mp hr
    exact ih (hstep _ _ _ hi hg.1 hu) (hg.2 u hu) hr

/-- The invariant rule without a guard. -/
theorem run_inv' (hstep : ∀ s e s', I s → M.step s e = some s' → I s')
    (hi : I s) (hr : M.run s es = some s') : I s' := by
  induction es generalizing s with
  | nil => cases hr; exact hi
  | cons e es ih =>
    obtain ⟨u, hu, hr⟩ := run_cons.mp hr
    exact ih (hstep _ _ _ hi hu) hr

/-- An invariant holds in every state of a run. -/
theorem always_of_inv (hstep : ∀ s e s', I s → G s e → M.step s e = some s' → I s')
    (hP : ∀ s, I s → P s) (hi : I s) (hg : M.Along G s es) : M.Always P s es := by
  induction es generalizing s with
  | nil => exact hP s hi
  | cons e es ih =>
    exact ⟨hP s hi, fun u hu => ih (hstep _ _ _ hi hg.1 hu) (hg.2 u hu)⟩

/-- What an invariant gives at each event of a run holds along the run. -/
theorem along_of_inv {H : σ → ε → Prop}
    (hstep : ∀ s e s', I s → G s e → M.step s e = some s' → I s')
    (hH : ∀ s e, I s → G s e → H s e) (hi : I s) (hg : M.Along G s es) : M.Along H s es := by
  induction es generalizing s with
  | nil => trivial
  | cons e es ih =>
    exact ⟨hH s e hi hg.1, fun u hu => ih (hstep _ _ _ hi hg.1 hu) (hg.2 u hu)⟩

/-- Two guards that agree wherever an invariant holds. -/
theorem along_congr {H : σ → ε → Prop} (hstep : ∀ s e s', I s → M.step s e = some s' → I s')
    (hGH : ∀ s e, I s → (G s e ↔ H s e)) (hi : I s) : M.Along G s es ↔ M.Along H s es := by
  induction es generalizing s with
  | nil => simp [Along]
  | cons e es ih =>
    simp only [Along, hGH s e hi]
    exact and_congr_right fun _ => forall_congr' fun u => forall_congr' fun hu =>
      ih (hstep _ _ _ hi hu)

/-- What holds in every state of a run holds in the last one. -/
theorem Always.last (h : M.Always P s es) (hr : M.run s es = some s') : P s' := by
  induction es generalizing s with
  | nil => cases hr; exact h
  | cons e es ih =>
    obtain ⟨u, hu, hr⟩ := run_cons.mp hr
    exact ih (h.2 u hu) hr

/-- **Where a run goes wrong.** A step that the guard allows keeps the invariant, which gives `P`,
and one that it does not allow breaks `P`. Then `P` holds in every state of a run exactly if the
guard holds along it. The last event of the run must happen for the run to show what it does to
`P`, so the run is one that can be completed. -/
theorem always_iff_along_of_inv (hkeep : ∀ s e s', I s → G s e → M.step s e = some s' → I s')
    (hP : ∀ s, I s → P s)
    (hbreak : ∀ s e s', I s → ¬ G s e → M.step s e = some s' → ¬ P s')
    (hi : I s) (hr : M.run s es = some s') : M.Always P s es ↔ M.Along G s es := by
  induction es generalizing s with
  | nil => simp [Always, Along, hP s hi]
  | cons e es ih =>
    obtain ⟨u, hu, hr⟩ := run_cons.mp hr
    have only : ∀ v, M.step s e = some v → v = u := fun v hv => by
      rw [hu] at hv; exact (Option.some.inj hv).symm
    constructor
    · rintro ⟨-, h⟩
      have hpu : P u := by
        have := h u hu
        cases es with
        | nil => exact this
        | cons _ _ => exact this.1
      have hg : G s e := Classical.byContradiction fun hg => hbreak _ _ _ hi hg hu hpu
      refine ⟨hg, fun v hv => ?_⟩
      rw [only v hv]
      exact (ih (hkeep _ _ _ hi hg hu) hr).mp (h u hu)
    · rintro ⟨hg, h⟩
      refine ⟨hP s hi, fun v hv => ?_⟩
      rw [only v hv]
      exact (ih (hkeep _ _ _ hi hg hu) hr).mpr (h u hu)

theorem along_true : M.Along (fun _ _ => True) s es := along_of_mem fun _ _ => trivial

/-- **Exactness over runs.** The invariant `I` is kept by every step, and a step from a state
with `P` keeps `P` exactly if the guard allows it. -/
theorem always_iff_along (hI : ∀ s e s', I s → M.step s e = some s' → I s')
    (hP : ∀ s e s', I s → P s → M.step s e = some s' → (P s' ↔ G s e))
    (hi : I s) (hp : P s) (hr : M.run s es = some s') : M.Always P s es ↔ M.Along G s es := by
  refine always_iff_along_of_inv (I := fun s => I s ∧ P s) ?_ (fun s h => h.2) ?_ ⟨hi, hp⟩ hr
  · intro s e s' h hg hs
    exact ⟨hI _ _ _ h.1 hs, (hP _ _ _ h.1 h.2 hs).mpr hg⟩
  · intro s e s' h hg hs hp'
    exact hg ((hP _ _ _ h.1 h.2 hs).mp hp')

/-- The system whose events are some of those of `M`. -/
def restrict {δ : Type} (M : Lts σ ε) (f : δ → ε) : Lts σ δ where
  step s d := M.step s (f d)

/-- Two copies of `M` that take the same events. -/
def both (M : Lts σ ε) : Lts (σ × σ) ε where
  step p e := (M.step p.1 e).bind fun u => (M.step p.2 e).map fun v => (u, v)

theorem both_step {p q : σ × σ} :
    M.both.step p e = some q ↔ M.step p.1 e = some q.1 ∧ M.step p.2 e = some q.2 := by
  simp only [both, Option.bind_eq_some_iff, Option.map_eq_some_iff]
  constructor
  · rintro ⟨u, hu, v, hv, rfl⟩
    exact ⟨hu, hv⟩
  · rintro ⟨hu, hv⟩
    exact ⟨q.1, hu, q.2, hv, rfl⟩

/-- **The simulation rule.** Two systems whose states stay related while a guard holds, and whose
guards agree in related states: the guards hold along the same runs. -/
theorem along_iff_of_sim {τ : Type} {N : Lts τ ε} {R : σ → τ → Prop} {H : τ → ε → Prop} {t : τ}
    (hG : ∀ s t e, R s t → (G s e ↔ H t e))
    (hM : ∀ s t e s', R s t → G s e → M.step s e = some s' → ∃ t', N.step t e = some t' ∧ R s' t')
    (hN : ∀ s t e t', R s t → G s e → N.step t e = some t' → ∃ s', M.step s e = some s' ∧ R s' t')
    (h : R s t) : M.Along G s es ↔ N.Along H t es := by
  induction es generalizing s t with
  | nil => exact Iff.rfl
  | cons e es ih =>
    constructor
    · rintro ⟨hg, ha⟩
      refine ⟨(hG s t e h).mp hg, fun t' ht => ?_⟩
      obtain ⟨s', hs, hr⟩ := hN s t e t' h hg ht
      exact (ih hr).mp (ha s' hs)
    · rintro ⟨hh, ha⟩
      have hg := (hG s t e h).mpr hh
      refine ⟨hg, fun s' hs => ?_⟩
      obtain ⟨t', ht, hr⟩ := hM s t e s' h hg hs
      exact (ih hr).mpr (ha t' ht)

/-! ## History variables -/

/-- The system with a history variable `γ`: `note g s e s'` is its new value after the step. -/
def withGhost (M : Lts σ ε) (note : γ → σ → ε → σ → γ) : Lts (σ × γ) ε where
  step p e := (M.step p.1 e).map fun s' => (s', note p.2 p.1 e s')

theorem withGhost_step {note : γ → σ → ε → σ → γ} {g g' : γ} :
    (M.withGhost note).step (s, g) e = some (s', g') ↔
      M.step s e = some s' ∧ g' = note g s e s' := by
  simp only [withGhost, Option.map_eq_some_iff, Prod.mk.injEq]
  constructor
  · rintro ⟨u, hu, rfl, rfl⟩; exact ⟨hu, rfl⟩
  · rintro ⟨hu, rfl⟩; exact ⟨s', hu, rfl, rfl⟩

end Lts
