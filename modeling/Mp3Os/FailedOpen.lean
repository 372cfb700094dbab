import Mp3Os.Bare
import Mp3Os.Descriptors
import Mp3Os.Globals

/-!
# A failed `sys_open`

A failed `sys_open` leaves its marks in globals only. A run with the failed call and the run
without it are compared in lockstep (`Twins`): every read and write has the same result and
effect in both exactly if none is sent elsewhere by the globals that the failed call has set
(`invisible_iff`).
-/

namespace Mp3

/-! ## Two runs in lockstep -/

/-- The event, if it is a read or a write, has the same result and effect in both states. -/
def SameAt (p : Kernel × Kernel) : Event → Prop
  | .read fd buf stack mem n => p.1.HasProcess →
      (p.1.sysRead fd buf stack mem n).map SysResult.bare =
        (p.2.sysRead fd buf stack mem n).map SysResult.bare
  | .write fd buf mem n => p.1.HasProcess →
      (p.1.sysWrite fd buf mem n).map SysResult.bare =
        (p.2.sysWrite fd buf mem n).map SysResult.bare
  | _ => True

/-- What has become of the globals since the failed call: `some k` while they are still its own,
with `k` closes since; `none` after the next `sys_open`. -/
def noteGlobals (g : Option Nat) (s : Kernel) (e : Event) (_ : Kernel) : Option Nat :=
  if e.Opens then none else if e.Frees s then g.map (· + 1) else g

/-- The run without the failed call, with the number of closes since. -/
def sinceFailure : Lts (Kernel × Option Nat) Event := kernel.withGhost noteGlobals

/-- The request is one that `sys_read` and `sys_write` send where the globals point. -/
def ByGlobals (s : Kernel) (fd : Int) (buf : Nat) : Prop :=
  s.HasProcess ∧ 2 ≤ fd ∧ fd < 6 ∧ buf ≠ 0

instance (s : Kernel) (fd : Int) (buf : Nat) : Decidable (ByGlobals s fd buf) :=
  inferInstanceAs (Decidable (_ ∧ _ ∧ _ ∧ _))

/-- The target of such a request. -/
def Kernel.globalTarget (s : Kernel) : Target :=
  if s.GlobalOpen then .call s.globalEntry.jumpStartIdx else .reject

/-- The request jumps through a NULL table. -/
def Kernel.JumpsNull (s : Kernel) : Prop := s.GlobalOpen ∧ s.globalEntry.jumpStartIdx = none

instance (s : Kernel) : Decidable s.JumpsNull := inferInstanceAs (Decidable (_ ∧ _))

/-- In the run without the failed call, a request that goes by the globals is not served until the
next `sys_open` (a write may also be refused by the table it reaches); after a close it jumps
through a NULL table. -/
def Unserved (p : Kernel × Option Nat) : Event → Prop
  | .read fd buf _ _ _ => ByGlobals p.1 fd buf →
      match p.2 with
      | none => True
      | some 0 => ¬ p.1.GlobalOpen
      | some (_ + 1) => p.1.JumpsNull
  | .write fd buf mem _ => ByGlobals p.1 fd buf →
      match p.2 with
      | none => True
      | some 0 => ¬ p.1.GlobalOpen ∨ Kernel.Refuses p.1.globalEntry.jumpStartIdx mem
      | some (_ + 1) => p.1.JumpsNull
  | _ => True

/-- The tables as `init_PCB` and the later calls leave them: nothing before the first entry, and
`terminal_struct` in the first two entries only, which are never in use. -/
structure TablesSound (s : Kernel) : Prop where
  before : ∀ p i, i < 0 → s.fdEntry p i = ⟨0, 0, 0, none, 0⟩
  terminal : ∀ p i, (s.fdEntry p i).jumpStartIdx = some .terminal → i < 2 ∧ (s.fdEntry p i).present = -1

/-- The states of the two runs: they differ in the globals of the failed call only. -/
structure Twins (u v : Kernel) (g : Option Nat) : Prop where
  bare : u.bare = v.bare
  sound : TablesSound u
  same : g = none → u.currFD = v.currFD ∧ u.currPid = v.currPid
  failed : ∀ k : Nat, g = some k → v.currFD = -1 - k

section Lockstep

variable {s s' u v : Kernel} {e : Event} {g : Option Nat} {fd : Int} {buf : Nat}

theorem tablesSound_step (hi : TablesSound s) (h : s.step e = some s') : TablesSound s' := by
  have hops : ∀ (t : Int) (old : Option Fop), Kernel.opsOf t old = some .terminal →
      old = some .terminal := by
    intro t old ho
    unfold Kernel.opsOf at ho
    split_ifs at ho
    · cases ho
    · cases ho
    · cases ho
    · exact ho
  have hentries := entries_step (s := s)
    (Q := fun _ i r => (i < 0 → r = ⟨0, 0, 0, none, 0⟩) ∧
      (r.jumpStartIdx = some .terminal → i < 2 ∧ r.present = -1))
    (fun _ i r j h2 _ _ _ hr => ⟨fun h0 => by omega, fun ht => by
      have := (hr.2 (hops _ _ ht)).1
      omega⟩)
    (fun _ i r h2 _ hr => ⟨fun h0 => by omega, fun ht => ⟨(hr.2 ht).1, rfl⟩⟩)
    (fun _ i r n h2 _ hr => ⟨fun h0 => by omega, fun ht => hr.2 ht⟩)
    (fun _ i h2 _ => ⟨fun h0 => by omega, fun ht => by cases ht⟩)
    h (fun p i => ⟨hi.before p i, hi.terminal p i⟩)
  exact ⟨fun p i => (hentries p i).1, fun p i => (hentries p i).2⟩

theorem tablesSound_boot (b : BootIn) : TablesSound (boot b) := by
  have hentry : ∀ p i, (boot b).fdEntry p i =
      if 0 ≤ p ∧ p < 6 then
        if i = 0 ∨ i = 1 then ⟨-1, 0, 0, some .terminal, 3⟩
        else if 2 ≤ i ∧ i < 8 then ⟨-1, 0, 0, none, 0⟩ else ⟨0, 0, 0, none, 0⟩
      else ⟨0, 0, 0, none, 0⟩ := by
    intro p i
    show (if 0 ≤ p ∧ p < 6 then _ else _ : Pcb).fdTable i = _
    split <;> rfl
  constructor
  · intro p i h0
    rw [hentry]
    split
    · rw [if_neg (by omega), if_neg (by omega)]
    · rfl
  · intro p i ht
    rw [hentry] at ht ⊢
    by_cases hp : 0 ≤ p ∧ p < 6
    · by_cases h01 : i = 0 ∨ i = 1
      · rw [if_pos hp, if_pos h01]
        exact ⟨by omega, rfl⟩
      · rw [if_pos hp, if_neg h01] at ht
        split at ht <;> cases ht
    · rw [if_neg hp] at ht
      cases ht

theorem Twins.fdEntry (h : Twins u v g) : v.fdEntry = u.fdEntry := by
  have hp : v.bare.pcbs = u.bare.pcbs := by rw [h.bare]
  have hp : v.pcbs = u.pcbs := hp
  funext p i
  rw [Kernel.fdEntry, Kernel.fdEntry, hp]

theorem Twins.curr (h : Twins u v g) : v.curr = u.curr := by
  have hc : v.bare.curr = u.bare.curr := by rw [h.bare]
  exact hc

/-- Requests that do not go by the globals have the same target in both runs. -/
theorem target_of_not_byGlobals (h : ¬ (2 ≤ fd ∧ fd < 6 ∧ buf ≠ 0)) :
    u.readTarget fd buf = v.readTarget fd buf ∧ u.writeTarget fd buf = v.writeTarget fd buf := by
  unfold Kernel.readTarget Kernel.writeTarget
  constructor <;> split_ifs <;> first | rfl | exact absurd ⟨by omega, by omega, by assumption⟩ h

theorem targets_eq (h2 : 2 ≤ fd) (h6 : fd < 6) (hb : buf ≠ 0) :
    s.readTarget fd buf = s.globalTarget ∧ s.writeTarget fd buf = s.globalTarget := by
  have hs : s.Served fd buf ↔ s.GlobalOpen := ⟨fun h => h.2.2, fun h => ⟨h6, hb, h⟩⟩
  rw [readTarget_eq h2, writeTarget_eq h2, Kernel.globalTarget]
  simp only [hs, and_self]

theorem Twins.globals_same (h : Twins u v none) :
    (v.GlobalOpen ↔ u.GlobalOpen) ∧ v.globalEntry = u.globalEntry := by
  obtain ⟨hf, hp⟩ := h.same rfl
  have he : v.globalEntry = u.globalEntry := by
    unfold Kernel.globalEntry
    rw [h.fdEntry, hf, hp]
  unfold Kernel.GlobalOpen
  rw [he, hf]
  exact ⟨Iff.rfl, rfl⟩

/-- Right after the failed call nothing is served. -/
theorem Twins.not_globalOpen (h : Twins u v (some 0)) : ¬ v.GlobalOpen :=
  fun hg => hg.2 (by have := h.failed 0 rfl; simpa using this)

/-- After a close the globals point before the table. -/
theorem Twins.jumpsNull {k : Nat} (h : Twins u v (some (k + 1))) : v.JumpsNull := by
  have hf := h.failed (k + 1) rfl
  have he : v.globalEntry = ⟨0, 0, 0, none, 0⟩ := by
    unfold Kernel.globalEntry
    rw [h.fdEntry]
    exact h.sound.before _ _ (by omega)
  refine ⟨⟨?_, by omega⟩, ?_⟩ <;> rw [he]
  decide

/-- The table that an open entry names is not that of the terminal. -/
theorem TablesSound.ops_ne (h : TablesSound s) (hg : s.GlobalOpen) :
    s.globalEntry.jumpStartIdx ≠ some .terminal := fun ht => hg.1 (h.terminal _ _ ht).2

theorem opRead_isSome {op : Fop} (h : op ≠ .terminal) (stack mem : Nat → UInt8) (n : Int) :
    (s.opRead op fd stack mem n).isSome := by
  cases op with
  | terminal => exact absurd rfl h
  | _ => rfl

/-- A read that is sent to a table does not look like one that is not served. -/
theorem opRead_bare_ne {op : Fop} (hfd : -1 < fd) (hc : v.bare = u.bare) (stack mem : Nat → UInt8)
    (n : Int) : (u.opRead op fd stack mem n).map SysResult.bare ≠ some ⟨-1, mem, v.bare⟩ := by
  intro h
  obtain ⟨⟨ret, buf', s'⟩, hr, hb⟩ := Option.map_eq_some_iff.mp h
  obtain ⟨h1, -, hs⟩ := (SysResult.mk.injEq ..).mp hb
  have h1 : ret = -1 := h1
  have hsu : s'.bare = u.bare := hs.trans hc
  subst h1
  have hcur : s'.bare.fs.curfile = u.bare.fs.curfile := by rw [hsu]
  have hpos : (s'.bare.fdEntry u.curr fd).filePos = (u.bare.fdEntry u.curr fd).filePos := by
    rw [hsu]
  rcases opRead_trace hfd hr with hne | hne
  · exact hne hcur
  · exact hne hpos

/-- A write that is sent to a table looks like one that is not served exactly if it is refused. -/
theorem opWrite_bare_iff {op : Fop} (hc : v.bare = u.bare) (mem : Nat → UInt8) (n : Int) :
    (u.opWrite op mem n).bare = ⟨-1, mem, v.bare⟩ ↔ Kernel.Refuses (some op) mem := by
  rw [hc]
  cases op with
  | rtc =>
    by_cases h : rtcFreqOk (i32 (le32 mem 0)) <;>
      simp [Kernel.opWrite, SysResult.bare, rtcWrite, Kernel.Refuses, h]
  | dir => simp [Kernel.opWrite, SysResult.bare, Kernel.Refuses]
  | file => simp [Kernel.opWrite, SysResult.bare, Kernel.Refuses]
  | terminal =>
    simp only [Kernel.opWrite, Kernel.terminalWriteFrom, Kernel.terminalWrite, SysResult.bare,
      Kernel.Refuses, SysResult.mk.injEq]
    simp
    omega

/-- A request that goes by the globals, in both runs. `serve` is what is done once the target is
known; `Ref` says for which tables that looks like a request that is not served. -/
theorem served_iff (serve : Kernel → Target → Option SysResult) (mem : Nat → UInt8)
    (Ref : Fop → Prop) (h : Twins u v g)
    (hcongr : ∀ t, (serve u t).map SysResult.bare = (serve v t).map SysResult.bare)
    (hreject : ∀ w, serve w .reject = some ⟨-1, mem, w⟩)
    (hnull : ∀ w, serve w (.call none) = none)
    (hop : ∀ op, op ≠ .terminal → (serve u (.call (some op))).isSome)
    (href : ∀ op, (serve u (.call (some op))).map SysResult.bare = some ⟨-1, mem, v.bare⟩ ↔ Ref op) :
    (serve u u.globalTarget).map SysResult.bare = (serve v v.globalTarget).map SysResult.bare ↔
      match g with
      | none => True
      | some 0 => ¬ u.GlobalOpen ∨ ∃ op, u.globalEntry.jumpStartIdx = some op ∧ Ref op
      | some (_ + 1) => u.JumpsNull := by
  match g, h with
  | none, h =>
    obtain ⟨hopen, hent⟩ := h.globals_same
    have ht : u.globalTarget = v.globalTarget := by
      unfold Kernel.globalTarget
      rw [hent]
      simp only [hopen]
    rw [ht]
    exact iff_of_true (hcongr _) trivial
  | some 0, h =>
    have hv : v.globalTarget = .reject := if_neg h.not_globalOpen
    rw [hv, hreject v]
    by_cases hg : u.GlobalOpen
    · rw [Kernel.globalTarget, if_pos hg]
      cases u.globalEntry.jumpStartIdx with
      | none =>
        rw [hnull]
        exact iff_of_false (fun h => by cases h) (by simp [hg])
      | some op => simpa [hg, SysResult.bare] using href op
    · rw [Kernel.globalTarget, if_neg hg, hreject u]
      exact iff_of_true (congrArg (fun w => some (SysResult.mk (-1) mem w)) h.bare) (.inl hg)
  | some (k + 1), h =>
    obtain ⟨hvo, hvn⟩ := h.jumpsNull
    have hv : v.globalTarget = .call none := by rw [Kernel.globalTarget, if_pos hvo, hvn]
    rw [hv, hnull v]
    by_cases hg : u.GlobalOpen
    · have hne := h.sound.ops_ne hg
      rw [Kernel.globalTarget, if_pos hg]
      unfold Kernel.JumpsNull
      cases ho : u.globalEntry.jumpStartIdx with
      | none =>
        rw [hnull]
        exact iff_of_true rfl ⟨hg, rfl⟩
      | some op =>
        rw [ho] at hne
        have hsome := hop op fun he => hne (by rw [he])
        refine iff_of_false (fun hmap => ?_) fun hj => by cases hj.2
        rw [Option.map_eq_none_iff.mp hmap] at hsome
        cases hsome
    · rw [Kernel.globalTarget, if_neg hg, hreject u]
      exact iff_of_false (fun h => by cases h) fun hj => hg hj.1

/-- **One read or write is the same in both runs exactly if it is not sent elsewhere by the
globals of the failed call.** -/
theorem sameAt_iff (h : Twins u v g) (e : Event) : SameAt (u, v) e ↔ Unserved (u, g) e := by
  -- a request that does not go by the globals is the same in both runs
  have hout : ∀ {fd : Int} {buf : Nat} {p q : Prop}, ¬ ByGlobals u fd buf →
      (¬ (2 ≤ fd ∧ fd < 6 ∧ buf ≠ 0) → p) → ((u.HasProcess → p) ↔ (ByGlobals u fd buf → q)) := by
    intro fd buf p q hby hp
    refine iff_of_true (fun hh => hp fun hn => hby ⟨hh, hn⟩) fun hb => absurd hb hby
  cases e with
  | read fd buf stack mem n =>
    by_cases hby : ByGlobals u fd buf
    · obtain ⟨hh, h2, h6, hb⟩ := id hby
      have hfd : -1 < fd := by omega
      have hs := served_iff (fun w t => w.serveRead t fd stack mem n) mem (fun _ => False) h
        (fun t => by
          rw [bare_serveRead (fun _ _ => hfd), bare_serveRead (s := v) (fun _ _ => hfd), h.bare])
        (fun _ => rfl) (fun _ => rfl) (fun op ho => opRead_isSome ho stack mem n)
        (fun op => iff_of_false (opRead_bare_ne hfd h.bare.symm stack mem n) id)
      rw [← (targets_eq h2 h6 hb).1, ← (targets_eq h2 h6 hb).1] at hs
      simp only [SameAt, Unserved, hh, hby, forall_const]
      refine hs.trans ?_
      cases g with
      | none => exact Iff.rfl
      | some k => cases k <;> simp
    · exact hout hby fun hn => sysRead_congr h.bare (target_of_not_byGlobals hn).1 stack mem n
  | write fd buf mem n =>
    by_cases hby : ByGlobals u fd buf
    · obtain ⟨hh, h2, h6, hb⟩ := id hby
      have hs := served_iff (fun w t => w.serveWrite t mem n) mem
        (fun op => Kernel.Refuses (some op) mem) h
        (fun t => by rw [bare_serveWrite, bare_serveWrite (s := v), h.bare])
        (fun _ => rfl) (fun _ => rfl) (fun _ _ => rfl)
        (fun op => Option.some_inj.trans (opWrite_bare_iff h.bare.symm mem n))
      rw [← (targets_eq h2 h6 hb).2, ← (targets_eq h2 h6 hb).2] at hs
      simp only [SameAt, Unserved, hh, hby, forall_const]
      refine hs.trans ?_
      cases g with
      | none => exact Iff.rfl
      | some k =>
        cases k with
        | zero =>
          refine or_congr_right ?_
          cases u.globalEntry.jumpStartIdx <;> simp [Kernel.Refuses]
        | succ k => exact Iff.rfl
    · exact hout hby fun hn => sysWrite_congr h.bare (target_of_not_byGlobals hn).2 mem n
  | _ => exact Iff.rfl

/-- **One step of both runs**: they both take it or both cannot, with the same effect. -/
theorem step_twins (h : Twins u v g) (hs : SameAt (u, v) e) :
    (u.step e).map Kernel.bare = (v.step e).map Kernel.bare := by
  have hproc : v.HasProcess ↔ u.HasProcess := by
    rw [Kernel.HasProcess, Kernel.HasProcess, h.curr]
  -- the state that a transfer leaves, out of its result
  have hstate : ∀ r r' : Option SysResult,
      (u.HasProcess → r.map SysResult.bare = r'.map SysResult.bare) →
      (u.syscall (r.map SysResult.state)).map Kernel.bare =
        (v.syscall (r'.map SysResult.state)).map Kernel.bare := by
    intro r r' hr
    by_cases hh : u.HasProcess
    · have hb := congrArg (Option.map SysResult.state) (hr hh)
      simp only [Option.map_map] at hb
      simp only [Kernel.syscall, hh, hproc.mpr hh, ↓reduceIte, Option.map_map]
      exact hb
    · have hh' : ¬ v.HasProcess := fun hv => hh (hproc.mp hv)
      simp only [Kernel.syscall, hh, hh', ↓reduceIte]
  by_cases ht : e.Transfers
  · cases e with
    | read fd buf stack mem n => exact hstate _ _ hs
    | write fd buf mem n => exact hstate _ _ hs
    | _ => exact absurd ht id
  · rw [step_bare ht, step_bare (s := v) ht, h.bare]

/-- A `sys_open` sets the globals to the same values in both runs. -/
theorem sysOpen_globals {f : Nat → UInt8} (h0 : f 0 ≠ 0) (h : u.bare = v.bare) :
    (u.sysOpen f).2.currFD = (v.sysOpen f).2.currFD ∧
      (u.sysOpen f).2.currPid = (v.sysOpen f).2.currPid := by
  have hcurr : u.bare.curr = v.bare.curr := by rw [h]
  have hcurr : u.curr = v.curr := hcurr
  have hlook : readDentryByName u.bare.fs f = readDentryByName v.bare.fs f := by rw [h]
  have hlook : readDentryByName u.fs f = readDentryByName v.fs f := hlook
  have hfree : u.bare.freeFd = v.bare.freeFd := by rw [h]
  have hfree : u.freeFd = v.freeFd := hfree
  rw [sysOpen_eq, sysOpen_eq, if_neg h0, if_neg h0, hlook, hfree]
  split <;> exact ⟨rfl, hcurr⟩

theorem Twins.step {u' v' : Kernel} (h : Twins u v g) (hb : u'.bare = v'.bare)
    (hu : u.step e = some u') (hv : v.step e = some v') :
    Twins u' v' (noteGlobals g u e u') := by
  have hfrees : e.Frees v ↔ e.Frees u := by
    cases e with
    | closeFd fd =>
      show v.Closes fd ↔ u.Closes fd
      unfold Kernel.Closes
      rw [h.fdEntry, h.curr]
    | _ => exact Iff.rfl
  refine ⟨hb, tablesSound_step h.sound hu, ?_, ?_⟩ <;> unfold noteGlobals
  · intro hg
    by_cases ho : e.Opens
    · cases e with
      | openFd f =>
        obtain ⟨-, hu⟩ := syscall_eq hu
        obtain ⟨-, hv⟩ := syscall_eq hv
        cases hu
        cases hv
        exact sysOpen_globals ho h.bare
      | _ => exact absurd ho id
    · rw [if_neg ho] at hg
      have hn : g = none := by
        split at hg
        · exact Option.map_eq_none_iff.mp hg
        · exact hg
      obtain ⟨hf, hp⟩ := h.same hn
      cases globalsStep hu with
      | same _ hn hf' hp' =>
        cases globalsStep hv with
        | same _ _ hf'' hp'' => exact ⟨by omega, by omega⟩
        | opens ho' => exact absurd ho' ho
        | frees hn' => exact absurd (hfrees.mp hn') hn
      | opens ho' => exact absurd ho' ho
      | frees hn hf' hp' =>
        cases globalsStep hv with
        | same _ hn' => exact absurd (hfrees.mpr hn) hn'
        | opens ho' => exact absurd ho' ho
        | frees _ hf'' hp'' => exact ⟨by omega, by omega⟩
  · intro k hg
    by_cases ho : e.Opens
    · rw [if_pos ho] at hg
      cases hg
    rw [if_neg ho] at hg
    cases globalsStep hv with
    | same _ hn hf' _ =>
      rw [if_neg fun hn' => hn (hfrees.mpr hn')] at hg
      rw [hf']
      exact h.failed k hg
    | opens ho' => exact absurd ho' ho
    | frees hn hf' _ =>
      rw [if_pos (hfrees.mp hn)] at hg
      obtain ⟨m, hm, rfl⟩ := Option.map_eq_some_iff.mp hg
      have := h.failed m hm
      rw [hf', this]
      omega

/-- The two runs from twins: every read and write is the same exactly if none is sent elsewhere. -/
theorem lockstep_iff (h : Twins u v g) (es : List Event) :
    kernel.both.Along SameAt (u, v) es ↔ sinceFailure.Along Unserved (u, g) es := by
  refine Lts.along_iff_of_sim (R := fun p q => p.1 = q.1 ∧ Twins p.1 p.2 q.2) ?_ ?_ ?_ ⟨rfl, h⟩
  · rintro ⟨u, v⟩ ⟨_, g⟩ e ⟨rfl, h⟩
    exact sameAt_iff h e
  · rintro ⟨u, v⟩ ⟨_, g⟩ e ⟨u', v'⟩ ⟨rfl, h⟩ hs hstep
    obtain ⟨hu, hv⟩ := Lts.both_step.mp hstep
    have hb := step_twins h hs
    rw [show u.step e = some u' from hu, show v.step e = some v' from hv] at hb
    exact ⟨(u', noteGlobals g u e u'), Lts.withGhost_step.mpr ⟨hu, rfl⟩, rfl,
      h.step (Option.some.inj hb) hu hv⟩
  · rintro ⟨u, v⟩ ⟨_, g⟩ e ⟨u', g'⟩ ⟨rfl, h⟩ hs hstep
    obtain ⟨hu, rfl⟩ := Lts.withGhost_step.mp hstep
    have hb := step_twins h hs
    rw [show u.step e = some u' from hu] at hb
    obtain ⟨v', hv, hb⟩ := Option.map_eq_some_iff.mp hb.symm
    exact ⟨(u', v'), Lts.both_step.mpr ⟨hu, hv⟩, rfl, h.step hb.symm hu hv⟩

/-- Once the globals are set anew, nothing is left of the failed call. -/
theorem unserved_of_none (s : Kernel) (es : List Event) :
    sinceFailure.Along Unserved (s, none) es := by
  refine Lts.along_of_inv (I := fun p => p.2 = none) (G := fun _ _ => True) ?_ ?_ rfl
    Lts.along_true
  · rintro ⟨u, _⟩ e ⟨u', g'⟩ rfl - hs
    obtain ⟨-, rfl⟩ := Lts.withGhost_step.mp hs
    unfold noteGlobals
    split_ifs <;> rfl
  · rintro ⟨u, _⟩ e rfl -
    cases e <;> first | trivial | exact fun _ => trivial

/-- **A failed `sys_open` is invisible** to the reads and writes of a run exactly if the name was
empty or none of them is sent elsewhere by the globals that the call has set. -/
theorem invisible_iff {b : BootIn} {es₀ : List Event} {s : Kernel} {f : Nat → UInt8}
    (hr : kernel.run (boot b) es₀ = some s) (hf : (s.sysOpen f).1 = -1) (es : List Event) :
    kernel.both.Along SameAt (s, (s.sysOpen f).2) es ↔
      f 0 = 0 ∨ sinceFailure.Along Unserved (s, some 0) es := by
  have hsound : TablesSound s :=
    Lts.run_inv' (fun _ _ _ hu hs => tablesSound_step hu hs) (tablesSound_boot b) hr
  by_cases h0 : f 0 = 0
  · have hs : (s.sysOpen f).2 = s := by rw [sysOpen_eq, if_pos h0]
    have htwins : Twins s s none := ⟨rfl, hsound, fun _ => ⟨rfl, rfl⟩, fun k hk => by cases hk⟩
    rw [hs]
    exact iff_of_true ((lockstep_iff htwins es).mpr (unserved_of_none s es)) (.inl h0)
  · rw [sysOpen_fails h0 hf, or_iff_right h0]
    refine lockstep_iff ⟨?_, hsound, fun h => (by cases h), fun k hk => ?_⟩ es
    · exact (bare_looked f).symm
    · cases hk
      rfl

/-- A read of four bytes of descriptor 2. -/
def readTwo : Event := .read 2 1 (fun _ => 0) (fun _ => 0) 4

/-- A shell that has opened nothing yet fails to open a file, reads, and opens the device. -/
theorem invisible_sample : ∃ s, kernel.run (boot sampleBoot) sampleLaunches = some s ∧
    (s.sysOpen missingName).1 = -1 ∧
    kernel.both.Along SameAt (s, (s.sysOpen missingName).2) [readTwo, .openFd rtcName, readTwo] := by
  have hv : (kernel.run (boot sampleBoot) sampleLaunches).map (fun s =>
      ((s.sysOpen missingName).1, decide s.GlobalOpen)) = some (-1, false) := by decide +kernel
  obtain ⟨s, hs, hv⟩ := Option.map_eq_some_iff.mp hv
  obtain ⟨hf, hg⟩ := Prod.mk.inj hv
  refine ⟨s, hs, hf, (invisible_iff hs hf _).mpr (.inr ?_)⟩
  refine ⟨fun _ => of_decide_eq_false hg, fun p _ => ⟨trivial, fun q hq => ⟨?_, fun _ _ => trivial⟩⟩⟩
  obtain ⟨u, -, rfl⟩ := Option.map_eq_some_iff.mp hq
  exact fun _ => trivial

/-- With the device open, the shell fails to open a file: a read of the device then gives -1. -/
theorem failed_open_stops_reads :
    ∃ s, kernel.run (boot sampleBoot) (sampleLaunches ++ [.openFd rtcName]) = some s ∧
      (s.sysOpen missingName).1 = -1 ∧
      ¬ kernel.both.Along SameAt (s, (s.sysOpen missingName).2) [readTwo] := by
  have hv : (kernel.run (boot sampleBoot) (sampleLaunches ++ [.openFd rtcName])).map (fun s =>
      ((s.sysOpen missingName).1, decide s.HasProcess,
        (s.sysRead 2 1 (fun _ => 0) (fun _ => 0) 4).map SysResult.ret,
        ((s.sysOpen missingName).2.sysRead 2 1 (fun _ => 0) (fun _ => 0) 4).map SysResult.ret)) =
      some (-1, true, some 0, some (-1)) := by decide +kernel
  obtain ⟨s, hs, hv⟩ := Option.map_eq_some_iff.mp hv
  simp only [Prod.mk.injEq, decide_eq_true_eq] at hv
  obtain ⟨hf, hh, hu, hw⟩ := hv
  refine ⟨s, hs, hf, fun ha => ?_⟩
  have hsame := congrArg (Option.map SysResult.ret) (ha.1 hh)
  simp only [Option.map_map] at hsame
  have hsame : (s.sysRead 2 1 (fun _ => 0) (fun _ => 0) 4).map SysResult.ret =
      ((s.sysOpen missingName).2.sysRead 2 1 (fun _ => 0) (fun _ => 0) 4).map SysResult.ret := hsame
  rw [hu, hw] at hsame
  cases hsame

end Lockstep

end Mp3
