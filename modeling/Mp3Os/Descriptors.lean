import Mp3Os.Dispatch
import Mp3Os.Files
import Mathlib.Logic.Function.Iterate

/-!
# Descriptors of one process

The calls `sys_open` and `sys_close` of one process, as a system of their own (`fdCalls`) with
the descriptors that the process owns as history.

Four functions have their own idea of the valid descriptors: `get_fdAvail` gives out 2 to 7,
`sys_read` and `sys_write` take those below 6, `sys_close` takes 3 to 5. They agree on the
descriptors of a process (`RangesAgree`) exactly if no `sys_open` gives out 2, 6 or 7
(`descriptorRanges_iff`), which the entries in use before the call decide (`OpensInRange`).
-/

namespace Mp3

/-- A call of a process about its descriptors. -/
inductive FdCall where
  | openFd (filename : Nat → UInt8)
  | closeFd (fd : Int)

def FdCall.event : FdCall → Event
  | .openFd f => .openFd f
  | .closeFd fd => .closeFd fd

/-- The descriptors that a process owns after a call: `sys_open` returned them, and no
`sys_close` of them has returned 0 since. -/
def noteOwned (owned : List Int) (s : Kernel) (c : FdCall) (_ : Kernel) : List Int :=
  match c with
  | .openFd f => if (s.sysOpen f).1 = -1 then owned else (s.sysOpen f).1 :: owned
  | .closeFd fd => if (s.sysClose fd).1 = 0 then owned.filter (· ≠ fd) else owned

/-- The calls of one process, with the descriptors it owns. -/
def fdCalls : Lts (Kernel × List Int) FdCall := (kernel.restrict FdCall.event).withGhost noteOwned

namespace Kernel

variable (s : Kernel)

/-- `sys_open` gives the descriptor out as soon as the lower ones are in use. -/
def CanReopen (fd : Int) : Prop :=
  ∀ f, f 0 ≠ 0 → (readDentryByName s.fs f).isSome →
    (∀ i, 2 ≤ i → i < fd → (s.fdEntry s.curr i).present ≠ -1) → (s.sysOpen f).1 = fd

/-- What the other calls are to make of a descriptor that the process owns. -/
structure DescriptorOk (fd : Int) : Prop where
  read : ∀ (u : Kernel) (buf : Nat), buf ≠ 0 → u.GlobalOpen → u.readTarget fd buf ≠ .reject
  write : ∀ (u : Kernel) (buf : Nat), buf ≠ 0 → u.GlobalOpen → u.writeTarget fd buf ≠ .reject
  close : (s.sysClose fd).1 = 0
  frees : ∀ p i, (s.sysClose fd).2.fdEntry p i =
    if p = s.curr ∧ i = fd then { s.fdEntry p i with present := -1 } else s.fdEntry p i
  again : ((s.sysClose fd).2.sysClose fd).1 = -1
  reopen : (s.sysClose fd).2.CanReopen fd

/-- `sys_open`, and `sys_close` of what it returned. -/
def openClose (f : Nat → UInt8) : Kernel := ((s.sysOpen f).2.sysClose (s.sysOpen f).1).2

/-- From here on any number of pairs of `sys_open` and `sys_close` leaves a free descriptor. -/
def PairsSucceed (f : Nat → UInt8) : Prop :=
  ∀ n, ((fun u : Kernel => u.openClose f)^[n] s |>.sysOpen f).1 ≠ -1

/-- A descriptor that `sys_close` can free again is free. -/
def HasClosable : Prop := ∃ i, 3 ≤ i ∧ i < 6 ∧ (s.fdEntry s.curr i).present = -1

instance : Decidable s.HasClosable :=
  decidable_of_iff (∃ i ∈ ([3, 4, 5] : List Int), (s.fdEntry s.curr i).present = -1) <| by
    simp only [List.mem_cons, List.not_mem_nil, or_false]
    constructor
    · rintro ⟨i, hi, hp⟩
      exact ⟨i, by omega, by omega, hp⟩
    · rintro ⟨i, h3, h6, hp⟩
      exact ⟨i, by omega, hp⟩

end Kernel

/-- All that the process owns is as it should be. -/
def RangesAgree (p : Kernel × List Int) : Prop := ∀ fd ∈ p.2, p.1.DescriptorOk fd

/-- Open and close pairs that start with this call never exhaust the table. -/
def NeverExhausts (p : Kernel × List Int) : FdCall → Prop
  | .openFd f => f 0 ≠ 0 → (readDentryByName p.1.fs f).isSome → ¬ p.1.files.Full p.1.curr →
      p.1.PairsSucceed f
  | .closeFd _ => True

/-- A `sys_open` of a name that exists is made when descriptor 2 is in use, and one of 3 to 5 is
free or neither 6 nor 7 is. -/
def OpensInRange (p : Kernel × List Int) : FdCall → Prop
  | .openFd f => f 0 ≠ 0 → (readDentryByName p.1.fs f).isSome →
      (p.1.fdEntry p.1.curr 2).present ≠ -1 ∧
      (p.1.HasClosable ∨
        (p.1.fdEntry p.1.curr 6).present ≠ -1 ∧ (p.1.fdEntry p.1.curr 7).present ≠ -1)
  | .closeFd _ => True

instance (p : Kernel × List Int) : ∀ c, Decidable (OpensInRange p c)
  | .openFd _ => inferInstanceAs (Decidable (_ → _ → _))
  | .closeFd _ => inferInstanceAs (Decidable True)

/-! ## One call -/

section OneCall

variable {s : Kernel} {f : Nat → UInt8} {d : Dentry} {fd p i : Int}

/-- `sys_open` succeeds exactly with the lowest free descriptor. -/
theorem sysOpen_of_free (h0 : f 0 ≠ 0) (hd : readDentryByName s.fs f = some d)
    (hf : s.freeFd = some fd) : s.sysOpen f = (fd, s.openedAs f d fd) := by
  rw [sysOpen_eq, if_neg h0, hd, hf]

theorem freeFd_of_lowest (h : s.files.LowestFree s.curr fd) : s.freeFd = some fd := by
  obtain ⟨i, hi⟩ := Search.find?_of_mem (l := ([2, 3, 4, 5, 6, 7] : List Int))
    (p := fun i => (s.fdEntry s.curr i).present = -1) (a := fd)
    (by have := h.ge; have := h.lt; simp; omega) (by simpa [Kernel.files] using h.free)
  have hl := freeFd_some hi
  have h1 : ¬ i < fd := fun hlt => h.lower i hl.ge hlt hl.free
  have h2 : ¬ fd < i := fun hlt => hl.lower fd h.ge hlt h.free
  obtain rfl : i = fd := by omega
  exact hi

theorem freeFd_isSome (h : ¬ s.files.Full s.curr) : ∃ fd, s.freeFd = some fd := by
  cases hf : s.freeFd with
  | none => exact absurd (freeFd_none hf) h
  | some fd => exact ⟨fd, rfl⟩

/-- The range tests of `sys_read` and `sys_write` take an owned descriptor below 6. -/
theorem readTarget_ne_reject {u : Kernel} {buf : Nat} (h2 : 2 ≤ fd) (h6 : fd < 6) (hb : buf ≠ 0)
    (hg : u.GlobalOpen) : u.readTarget fd buf ≠ .reject ∧ u.writeTarget fd buf ≠ .reject := by
  have hs : u.Served fd buf := ⟨h6, hb, hg⟩
  rw [readTarget_eq h2, writeTarget_eq h2, if_pos hs]
  simp

/-- A descriptor in use is as it should be exactly if it is one of 3 to 5. -/
theorem descriptorOk_iff (h2 : 2 ≤ fd) (h8 : fd < 8) (hp : (s.fdEntry s.curr fd).present = 0) :
    s.DescriptorOk fd ↔ 3 ≤ fd ∧ fd < 6 := by
  constructor
  · intro h
    have hclose := h.close
    rw [sysClose_eq] at hclose
    split at hclose
    · rename_i hc
      exact ⟨hc.1, hc.2.1⟩
    · cases hclose
  · rintro ⟨h3, h6⟩
    have hc : s.sysClose fd = (0, s.closed fd) := by rw [sysClose_eq, if_pos ⟨h3, h6, hp⟩]
    have hfree : ((s.closed fd).fdEntry s.curr fd).present = -1 := by
      rw [fdEntry_closed, if_pos ⟨rfl, rfl⟩]
    refine ⟨fun u buf hb hg => (readTarget_ne_reject h2 h6 hb hg).1,
      fun u buf hb hg => (readTarget_ne_reject h2 h6 hb hg).2, by rw [hc], fun p i => ?_, ?_,
      fun f h0 hd hlow => ?_⟩
    · rw [hc, fdEntry_closed]
      split
      · rename_i he
        rw [he.1, he.2]
      · rfl
    · rw [hc, sysClose_eq, if_neg]
      rintro ⟨-, -, h0⟩
      have h0 : ((s.closed fd).fdEntry s.curr fd).present = 0 := h0
      omega
    · rw [hc] at hd hlow ⊢
      obtain ⟨d, hd⟩ := Option.isSome_iff_exists.mp hd
      have hl : (s.closed fd).files.LowestFree (s.closed fd).curr fd := ⟨h2, h8, hfree, hlow⟩
      rw [sysOpen_of_free h0 hd (freeFd_of_lowest hl)]

/-- `sys_open` and `sys_close` of what it returned keep a closable descriptor free. -/
theorem hasClosable_openClose (h0 : f 0 ≠ 0) (hd : (readDentryByName s.fs f).isSome)
    (h : s.HasClosable) : (s.openClose f).HasClosable := by
  obtain ⟨i, h3, h6, hi⟩ := h
  obtain ⟨d, hd⟩ := Option.isSome_iff_exists.mp hd
  obtain ⟨fd, hf⟩ := freeFd_isSome (s := s) fun hfull => hfull i (by omega) (by omega) hi
  have hl := freeFd_some hf
  have hle : fd ≤ i := by
    by_contra hlt
    exact hl.lower i (by omega) (by omega) hi
  unfold Kernel.openClose
  rw [sysOpen_of_free h0 hd hf, sysClose_eq]
  by_cases hc : (s.openedAs f d fd).Closes fd
  · rw [if_pos hc]
    refine ⟨fd, hc.1, hc.2.1, ?_⟩
    show (((s.openedAs f d fd).closed fd).fdEntry s.curr fd).present = -1
    rw [fdEntry_closed, if_pos ⟨rfl, rfl⟩]
  · -- descriptor 2 stays in use, and the closable one stays free
    rw [if_neg hc]
    have hpres : ((s.openedAs f d fd).fdEntry s.curr fd).present = 0 := by
      rw [fdEntry_openedAs, if_pos ⟨rfl, rfl⟩]
      rfl
    have hne : i ≠ fd := fun he => hc ⟨by omega, by omega, hpres⟩
    refine ⟨i, h3, h6, ?_⟩
    show ((s.openedAs f d fd).fdEntry s.curr i).present = -1
    rw [fdEntry_openedAs, if_neg fun he => hne he.2]
    exact hi

theorem readDentryByName_sysOpen (f g : Nat → UInt8) :
    readDentryByName (s.sysOpen f).2.fs g = readDentryByName s.fs g := by
  rw [sysOpen_eq]
  split
  · rfl
  · split <;> exact readDentryByName_opened ..

theorem readDentryByName_sysClose (fd : Int) (g : Nat → UInt8) :
    readDentryByName (s.sysClose fd).2.fs g = readDentryByName s.fs g := by
  rw [sysClose_eq]
  split <;> rfl

/-- A free descriptor among 3 to 5 is enough for any number of pairs. -/
theorem pairsSucceed (h0 : f 0 ≠ 0) (hd : (readDentryByName s.fs f).isSome) (h : s.HasClosable) :
    s.PairsSucceed f := by
  intro n
  have hn : (readDentryByName ((fun u : Kernel => u.openClose f)^[n] s).fs f).isSome ∧
      ((fun u : Kernel => u.openClose f)^[n] s).HasClosable := by
    induction n with
    | zero => exact ⟨hd, h⟩
    | succ n ih =>
      rw [Function.iterate_succ_apply']
      refine ⟨?_, hasClosable_openClose h0 ih.1 ih.2⟩
      rw [Kernel.openClose, readDentryByName_sysClose, readDentryByName_sysOpen]
      exact ih.1
  generalize (fun u : Kernel => u.openClose f)^[n] s = u at hn
  obtain ⟨hd, i, h3, h6, hi⟩ := hn
  obtain ⟨d, hd⟩ := Option.isSome_iff_exists.mp hd
  obtain ⟨fd, hf⟩ := freeFd_isSome (s := u) fun hfull => hfull i (by omega) (by omega) hi
  rw [sysOpen_of_free h0 hd hf]
  have hge := (freeFd_some hf).ge
  show fd ≠ -1
  omega

end OneCall

/-! ## All calls of a run -/

/-- The process runs, and what it owns is in use. -/
structure OwnedInUse (p : Kernel × List Int) : Prop where
  process : p.1.HasProcess
  ge : ∀ fd ∈ p.2, 2 ≤ fd
  lt : ∀ fd ∈ p.2, fd < 8
  present : ∀ fd ∈ p.2, (p.1.fdEntry p.1.curr fd).present = 0

section Run

variable {s s' : Kernel} {owned owned' : List Int} {c : FdCall}

theorem fdCalls_step (hh : s.HasProcess) :
    fdCalls.step (s, owned) c =
      match c with
      | .openFd f => some ((s.sysOpen f).2, noteOwned owned s c (s.sysOpen f).2)
      | .closeFd fd => some ((s.sysClose fd).2, noteOwned owned s c (s.sysClose fd).2) := by
  cases c <;>
    simp [fdCalls, Lts.withGhost, Lts.restrict, FdCall.event, kernel, Kernel.step, Kernel.syscall, hh]

theorem rangesAgree_iff {p : Kernel × List Int} (h : OwnedInUse p) :
    RangesAgree p ↔ ∀ fd ∈ p.2, 3 ≤ fd ∧ fd < 6 :=
  forall_congr' fun fd => forall_congr' fun hm =>
    descriptorOk_iff (h.ge fd hm) (h.lt fd hm) (h.present fd hm)

/-- `sys_open` adds the lowest free descriptor to what the process owns, or nothing. -/
theorem fdCalls_open {f : Nat → UInt8} (hi : OwnedInUse (s, owned))
    (h : fdCalls.step (s, owned) (.openFd f) = some (s', owned')) :
    (∃ d fd, f 0 ≠ 0 ∧ readDentryByName s.fs f = some d ∧ s.files.LowestFree s.curr fd ∧
      s' = s.openedAs f d fd ∧ owned' = fd :: owned) ∨
    ((f 0 = 0 ∨ readDentryByName s.fs f = none ∨ s.files.Full s.curr) ∧
      (s' = s ∨ s' = s.notOpened f) ∧ owned' = owned) := by
  rw [fdCalls_step hi.process] at h
  simp only [noteOwned, sysOpen_eq, Option.some.injEq, Prod.mk.injEq] at h
  by_cases h0 : f 0 = 0
  · simp only [h0, ↓reduceIte] at h
    exact .inr ⟨.inl h0, .inl h.1.symm, h.2.symm⟩
  cases hd : readDentryByName s.fs f with
  | none =>
    simp only [h0, hd, ↓reduceIte] at h
    exact .inr ⟨.inr (.inl rfl), .inr h.1.symm, h.2.symm⟩
  | some d =>
    cases hf : s.freeFd with
    | none =>
      simp only [h0, hd, hf, ↓reduceIte] at h
      exact .inr ⟨.inr (.inr (freeFd_none hf)), .inr h.1.symm, h.2.symm⟩
    | some fd =>
      have hl := freeFd_some hf
      have hne : fd ≠ -1 := by have := hl.ge; omega
      simp only [h0, hd, hf, hne, ↓reduceIte] at h
      exact .inl ⟨d, fd, h0, rfl, hl, h.1.symm, h.2.symm⟩

/-- `sys_close` takes a descriptor from what the process owns, or does nothing. -/
theorem fdCalls_close {fd : Int} (hi : OwnedInUse (s, owned))
    (h : fdCalls.step (s, owned) (.closeFd fd) = some (s', owned')) :
    (s' = s.closed fd ∧ owned' = owned.filter (· ≠ fd)) ∨ (s' = s ∧ owned' = owned) := by
  rw [fdCalls_step hi.process] at h
  simp only [noteOwned, sysClose_eq, Option.some.injEq, Prod.mk.injEq] at h
  by_cases hc : s.Closes fd
  · simp only [hc, ↓reduceIte] at h
    exact .inl ⟨h.1.symm, h.2.symm⟩
  · simp only [hc, ↓reduceIte] at h
    exact .inr ⟨h.1.symm, h.2.symm⟩

theorem OwnedInUse.openedAs {f : Nat → UInt8} {d : Dentry} {fd : Int}
    (hi : OwnedInUse (s, owned)) (hl : s.files.LowestFree s.curr fd) :
    OwnedInUse (s.openedAs f d fd, fd :: owned) where
  process := hi.process
  ge i hm := by
    rcases List.mem_cons.mp hm with rfl | hm
    · exact hl.ge
    · exact hi.ge i hm
  lt i hm := by
    rcases List.mem_cons.mp hm with rfl | hm
    · exact hl.lt
    · exact hi.lt i hm
  present i hm := by
    show ((s.openedAs f d fd).fdEntry s.curr i).present = 0
    rw [fdEntry_openedAs]
    split
    · rfl
    · rename_i hne
      rcases List.mem_cons.mp hm with rfl | hm
      · exact absurd ⟨rfl, rfl⟩ hne
      · exact hi.present i hm

theorem OwnedInUse.closed {fd : Int} (hi : OwnedInUse (s, owned)) :
    OwnedInUse (s.closed fd, owned.filter (· ≠ fd)) where
  process := hi.process
  ge i hm := hi.ge i (List.mem_filter.mp hm).1
  lt i hm := hi.lt i (List.mem_filter.mp hm).1
  present i hm := by
    obtain ⟨hm, hne⟩ := List.mem_filter.mp hm
    show ((s.closed fd).fdEntry s.curr i).present = 0
    rw [fdEntry_closed, if_neg fun he => by simp [he.2] at hne]
    exact hi.present i hm

/-- **One call keeps what the process owns in use.** -/
theorem ownedInUse_step {p p' : Kernel × List Int} (hi : OwnedInUse p)
    (h : fdCalls.step p c = some p') : OwnedInUse p' := by
  obtain ⟨s, owned⟩ := p
  obtain ⟨s', owned'⟩ := p'
  cases c with
  | openFd f =>
    rcases fdCalls_open hi h with ⟨d, fd, -, -, hl, rfl, rfl⟩ | ⟨-, rfl | rfl, rfl⟩
    · exact hi.openedAs hl
    · exact hi
    · exact ⟨hi.process, hi.ge, hi.lt, hi.present⟩
  | closeFd fd =>
    rcases fdCalls_close hi h with ⟨rfl, rfl⟩ | ⟨rfl, rfl⟩
    · exact hi.closed
    · exact hi

/-- The lowest free descriptor is closable exactly if the call is in range. -/
theorem opensInRange_iff {f : Nat → UInt8} {d : Dentry} {fd : Int} (h0 : f 0 ≠ 0)
    (hd : readDentryByName s.fs f = some d) (hl : s.files.LowestFree s.curr fd) :
    OpensInRange (s, owned) (.openFd f) ↔ 3 ≤ fd ∧ fd < 6 := by
  have hge := hl.ge
  have hlt := hl.lt
  have hlow : ∀ i, 2 ≤ i → (s.fdEntry s.curr i).present = -1 → fd ≤ i := by
    intro i h2 hi
    by_contra hlt
    exact hl.lower i h2 (by omega) hi
  constructor
  · intro h
    obtain ⟨h2, h⟩ := h h0 (by rw [hd]; rfl)
    have hne : fd ≠ 2 := fun he => h2 (he ▸ hl.free)
    rcases h with ⟨i, h3, h6, hi⟩ | ⟨h6, h7⟩
    · have := hlow i (by omega) hi
      omega
    · have h6 : fd ≠ 6 := fun he => h6 (he ▸ hl.free)
      have h7 : fd ≠ 7 := fun he => h7 (he ▸ hl.free)
      omega
  · rintro ⟨h3, h6⟩ - -
    exact ⟨hl.lower 2 (by omega) (by omega), .inl ⟨fd, h3, h6, hl.free⟩⟩

/-- A call that fails is in range. -/
theorem opensInRange_of_fails {f : Nat → UInt8}
    (h : f 0 = 0 ∨ readDentryByName s.fs f = none ∨ s.files.Full s.curr) :
    OpensInRange (s, owned) (.openFd f) := by
  intro h0 hd
  rcases h with h | h | h
  · exact absurd h h0
  · rw [h] at hd
    cases hd
  · exact ⟨h 2 (by decide) (by decide), .inr ⟨h 6 (by decide) (by decide), h 7 (by decide) (by decide)⟩⟩

/-- **One call keeps the ranges in agreement exactly if it is in range.** -/
theorem rangesAgree_step {p p' : Kernel × List Int} (hi : OwnedInUse p) (hp : RangesAgree p)
    (h : fdCalls.step p c = some p') : RangesAgree p' ↔ OpensInRange p c := by
  have hi' := ownedInUse_step hi h
  rw [rangesAgree_iff hi] at hp
  rw [rangesAgree_iff hi']
  obtain ⟨s, owned⟩ := p
  obtain ⟨s', owned'⟩ := p'
  cases c with
  | openFd f =>
    rcases fdCalls_open hi h with ⟨d, fd, h0, hd, hl, -, rfl⟩ | ⟨hfail, -, rfl⟩
    · rw [opensInRange_iff h0 hd hl]
      refine ⟨fun h => h fd (by simp), fun h i hm => ?_⟩
      rcases List.mem_cons.mp hm with rfl | hm
      · exact h
      · exact hp i hm
    · exact ⟨fun _ => opensInRange_of_fails hfail, fun _ => hp⟩
  | closeFd fd =>
    refine ⟨fun _ => trivial, fun _ i hm => ?_⟩
    rcases fdCalls_close hi h with ⟨-, rfl⟩ | ⟨-, rfl⟩
    · exact hp i (List.mem_filter.mp hm).1
    · exact hp i hm

/-- A call in range starts pairs that never exhaust the table. -/
theorem neverExhausts_of_inRange (p : Kernel × List Int) (h : OpensInRange p c) :
    NeverExhausts p c := by
  cases c with
  | openFd f =>
    intro h0 hd hfull
    obtain ⟨h2, h | ⟨h6, h7⟩⟩ := h h0 hd
    · exact pairsSucceed h0 hd h
    · apply pairsSucceed h0 hd
      by_contra hnone
      refine hfull fun i hi2 hi8 => ?_
      rcases (by omega : i = 2 ∨ (3 ≤ i ∧ i < 6) ∨ i = 6 ∨ i = 7) with rfl | hi | rfl | rfl
      · exact h2
      · exact fun he => hnone ⟨i, hi.1, hi.2, he⟩
      · exact h6
      · exact h7
  | closeFd fd => trivial

/-- The calls of a process can all be made. -/
theorem fdCalls_run {p : Kernel × List Int} (hi : OwnedInUse p) (cs : List FdCall) :
    ∃ p', fdCalls.run p cs = some p' := by
  induction cs generalizing p with
  | nil => exact ⟨p, rfl⟩
  | cons c cs ih =>
    obtain ⟨u, hu⟩ : ∃ u, fdCalls.step p c = some u := by
      rw [fdCalls_step hi.process]
      cases c <;> exact ⟨_, rfl⟩
    obtain ⟨p', hr⟩ := ih (ownedInUse_step hi hu)
    exact ⟨p', Lts.run_cons.mpr ⟨u, hu, hr⟩⟩

/-- **The ranges agree along the calls of a process, and pairs of calls never exhaust the table,
exactly if no call of `sys_open` gives out 2, 6 or 7.** -/
theorem descriptorRanges_iff (s : Kernel) (h : s.HasProcess) (cs : List FdCall) :
    fdCalls.Always RangesAgree (s, []) cs ∧ fdCalls.Along NeverExhausts (s, []) cs ↔
      fdCalls.Along OpensInRange (s, []) cs := by
  have hi : OwnedInUse (s, []) := ⟨h, by simp, by simp, by simp⟩
  obtain ⟨p', hr⟩ := fdCalls_run hi cs
  have hiff := Lts.always_iff_along (M := fdCalls) (fun _ _ _ hu hs => ownedInUse_step hu hs)
    (fun _ _ _ hu hp hs => rangesAgree_step hu hp hs) hi
    (show RangesAgree (s, []) from fun _ hm => by cases hm) hr
  rw [hiff]
  exact and_iff_left_of_imp (Lts.Along.mono fun p _ => neverExhausts_of_inRange p)

/-- The name of the device on the small machine. -/
def rtcName : Nat → UInt8 := cstr (lit ['r', 't', 'c'])

/-- With the device open as 2, a process opens a file as 3, closes it and opens it again. -/
def rangedCalls : List FdCall := [.openFd textName, .closeFd 3, .openFd textName]

theorem descriptorRanges_sample :
    ∃ s, kernel.run (boot sampleBoot) (sampleLaunches ++ [.openFd rtcName]) = some s ∧
      s.HasProcess ∧ fdCalls.Always RangesAgree (s, []) rangedCalls ∧
      fdCalls.Along NeverExhausts (s, []) rangedCalls := by
  have hv : (kernel.run (boot sampleBoot) (sampleLaunches ++ [.openFd rtcName])).map (fun s =>
      decide (s.HasProcess ∧ fdCalls.Along OpensInRange (s, []) rangedCalls)) = some true := by
    decide +kernel
  obtain ⟨s, hs, hv⟩ := Option.map_eq_some_iff.mp hv
  obtain ⟨hh, ha⟩ := of_decide_eq_true hv
  exact ⟨s, hs, hh, (descriptorRanges_iff s hh rangedCalls).mpr ha⟩

/-- The first descriptor of a process is 2, and it cannot be closed. -/
theorem first_descriptor_stays_open :
    ∃ s, kernel.run (boot sampleBoot) sampleLaunches = some s ∧
      ¬ (fdCalls.Always RangesAgree (s, []) [.openFd rtcName] ∧
        fdCalls.Along NeverExhausts (s, []) [.openFd rtcName]) := by
  have hv : (kernel.run (boot sampleBoot) sampleLaunches).map (fun s =>
      (decide s.HasProcess, (s.sysOpen rtcName).1, ((s.sysOpen rtcName).2.sysClose 2).1)) =
      some (true, 2, -1) := by decide +kernel
  obtain ⟨s, hs, hv⟩ := Option.map_eq_some_iff.mp hv
  simp only [Prod.mk.injEq, decide_eq_true_eq] at hv
  obtain ⟨hh, hopen, hclose⟩ := hv
  refine ⟨s, hs, fun h => ?_⟩
  have hagree : RangesAgree ((s.sysOpen rtcName).2, [2]) :=
    h.1.2 _ (by simp [fdCalls_step hh, noteOwned, hopen])
  have h0 : ((s.sysOpen rtcName).2.sysClose 2).1 = 0 := (hagree 2 (by simp)).close
  rw [hclose] at h0
  cases h0

end Run

end Mp3
