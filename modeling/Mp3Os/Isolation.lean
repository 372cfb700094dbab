import Mp3Os.Shells
import Mp3Os.Video

/-!
# Address-space isolation

What a user program can reach, in every state after the base shells have started
(`UserMappings`): the 4 MB page at `0x08000000` is the frame of the process of the scheduled
terminal, the pages from `0x08400000` on are video pages and exist only after a `vidmap`, and
nothing else is accessible. So neither the kernel's frame nor another process's is reachable.

The entry of the program page is the one that `Rooted` follows (`Shells.lean`); the rest is
`Vid.UserOk`, which every change of the video mappings keeps.
-/

namespace Mp3

/-- The mappings of user programs. `mapped`: some process has called `vidmap`. -/
structure UserMappings (s : Kernel) (mapped : Prop) : Prop where
  process : 0 ≤ s.curr ∧ s.curr ≤ 5
  program : ∀ va, va / 4194304 = 32 →
    s.paging.translate true va = some ((s.curr + 2).toNat * 4194304 + va % 4194304)
  video : ∀ va pa, va / 4194304 = 33 → s.paging.translate true va = some pa →
    mapped ∧ (pa / 4096 = 0xB8 ∨ ∃ t : Fin 3, pa / 4096 = (s.terminals t).videoBuffer / 4096)
  other : ∀ va, va / 4194304 ≠ 32 → va / 4194304 ≠ 33 → s.paging.translate true va = none
  /-- Frame `q + 2` is that of process `q`, and frame 1 the kernel's. -/
  isolated : ∀ va pa, s.paging.translate true va = some pa →
    ∀ q : Int, -1 ≤ q → q ≤ 5 → q ≠ s.curr → pa / 4194304 ≠ (q + 2).toNat

/-- What the page directory and the video entries hold, apart from the program page. -/
structure Vid.UserOk (v : Vid) (L : Layout) (mapped : Prop) : Prop where
  tableAddr : v.tableAddr = L.pageTable
  uvptAddr : v.uvptAddr = L.userVideoPageTable
  dir : ∀ i, i ≠ 32 → i ≠ 33 → v.dir i = (Paging.initPaging L).pageDirectory i
  dir33 : v.dir 33 = 2 ∨ (mapped ∧ v.dir 33 = L.userVideoPageTable ||| 7)
  uvpt : ∀ i, v.uvpt i = 0 ∨ v.uvpt i = 0xB8000 ||| 7 ∨ ∃ t : Fin 3, v.uvpt i = v.buffer t ||| 7

namespace Vid

variable {v : Vid} {L : Layout} {mapped : Prop}

theorem UserOk.next (h : v.UserOk L mapped) : v.next.UserOk L mapped :=
  ⟨h.tableAddr, h.uvptAddr, h.dir, h.dir33, h.uvpt⟩

theorem UserOk.switch (h : v.UserOk L mapped) (hw : v.Wf) (d : Int) :
    (v.switch d).UserOk L mapped := by
  obtain ⟨j, hj⟩ := hw.visible
  unfold Vid.switch
  split
  · exact h
  · refine ⟨h.tableAddr, h.uvptAddr, h.dir, h.dir33, fun i => ?_⟩
    dsimp only
    by_cases hd : i = d.toNat
    · exact .inr (.inl (by rw [hd, Function.update_self]))
    · by_cases hv : i = v.visible.toNat
      · exact .inr (.inr ⟨j, by rw [Function.update_of_ne hd, hv, Function.update_self, hj]⟩)
      · rw [Function.update_of_ne hd, Function.update_of_ne hv]
        exact h.uvpt i

theorem UserOk.map (h : v.UserOk L mapped) (hm : mapped) : v.map.UserOk L mapped := by
  refine ⟨h.tableAddr, h.uvptAddr, fun i h32 h33 => ?_, .inr ⟨hm, ?_⟩, fun i => ?_⟩
  · simpa [Vid.map, h33] using h.dir i h32 h33
  · simp [Vid.map, h.uvptAddr]
  · by_cases hc : i = v.cur.toNat
    · exact .inr (.inl (by simp [Vid.map, hc]))
    · simpa [Vid.map, hc] using h.uvpt i

end Vid

/-! ## The walk of the processor over the tables -/

section Walk

variable {P : Paging} {L : Layout} {va : Nat}

theorem translate_of_not_allowed (h : Paging.allows true (P.pageDirectory (va / 4194304)) = false) :
    P.translate true va = none := by
  simp [Paging.translate, h]

/-- An entry of a user page of 4 MB. -/
theorem allows_userEntry (pid : Int) : Paging.allows true (userEntry pid) = true := by
  rw [Paging.allows, userEntry, aligned_or_testBit (frameAddr_aligned pid) (by decide),
    aligned_or_testBit (frameAddr_aligned pid) (by decide)]
  decide

theorem translate_program (P : Paging) (va : Nat) {pid : Int} (h0 : 0 ≤ pid) (h5 : pid ≤ 5)
    (hpde : P.pageDirectory 32 = userEntry pid) (hva : va / 4194304 = 32) :
    P.translate true va = some ((pid + 2).toNat * 4194304 + va % 4194304) := by
  have h7 : (userEntry pid).testBit 7 = true := by
    rw [userEntry, aligned_or_testBit (frameAddr_aligned pid) (by decide)]
    decide
  simp only [Paging.translate, hva, hpde, allows_userEntry, h7, ↓reduceIte, userEntry_frame h0 h5]

/-- The entries of the boot directory that are not the program's or the video pages' do not
allow users. -/
theorem initPaging_not_allowed (i : Nat) :
    Paging.allows true ((Paging.initPaging L).pageDirectory i) = false := by
  unfold Paging.initPaging Paging.allows
  dsimp only
  split_ifs
  · rw [aligned_or_testBit L.pageTable_aligned (by decide),
      aligned_or_testBit L.pageTable_aligned (by decide)]
    decide
  · decide
  · decide

theorem translate_video {pa : Nat} (hva : va / 4194304 = 33)
    (hpde : P.pageDirectory 33 = L.userVideoPageTable ||| 7)
    (ht : P.pageTableAddr = L.pageTable) (hu : P.userVideoPageTableAddr = L.userVideoPageTable)
    (h : P.translate true va = some pa) :
    pa / 4096 = P.userVideoPageTable (va / 4096 % 1024) / 4096 ∧
      (P.userVideoPageTable (va / 4096 % 1024)).testBit 0 = true := by
  have ha := L.userVideoPageTable_aligned
  have h7 : (L.userVideoPageTable ||| 7).testBit 7 = false := by
    rw [aligned_or_testBit ha (by decide)]
    decide
  have htab : P.tableAt (L.userVideoPageTable ||| 7) = some P.userVideoPageTable := by
    rw [Paging.tableAt, aligned_or_page ha (by decide), ht, hu, if_neg (Ne.symm L.ne), if_pos rfl]
  simp only [Paging.translate, hva, hpde, h7, htab, Option.bind_some] at h
  split at h
  · simp only [Bool.false_eq_true, ↓reduceIte] at h
    split at h
    · rename_i hal
      obtain rfl := Option.some.inj h
      refine ⟨by omega, ?_⟩
      simp only [Paging.allows, Bool.and_eq_true] at hal
      exact hal.1
    · cases h
  · cases h

end Walk

/-! ## Every run -/

section Run

variable {s s' : Kernel} {e : Event} {L : Layout} {mapped : Prop}

/-- The invariant: the base shells, and video mappings as they should be. -/
structure Isolated (L : Layout) (mapped : Prop) (s : Kernel) : Prop where
  rooted : ∃ l, s.procs.Rooted l
  vid : s.vid.Wf
  user : s.vid.UserOk L mapped

theorem userOk_step (hw : s.vid.Wf) (h : s.vid.UserOk L mapped) (hm : e.maps → mapped)
    (hs : s.step e = some s') : s'.vid.UserOk L mapped := by
  cases vidStep hs with
  | stay _ hv => exact hv ▸ h
  | next _ hv => exact hv ▸ h.next
  | switch d _ hv => exact hv ▸ h.switch hw d
  | nextSwitch d _ hv => exact hv ▸ h.next.switch hw.next d
  | map he hv => exact hv ▸ h.map (hm he)

theorem userOk_boot (b : BootIn) : (boot b).vid.UserOk b.layout mapped := by
  refine ⟨rfl, rfl, fun i h32 _ => ?_, .inl rfl, fun i => .inl rfl⟩
  exact Function.update_of_ne h32 ..

/-- The invariant says what users can reach. -/
theorem Isolated.mappings (h : Isolated L mapped s) : UserMappings s mapped := by
  obtain ⟨l, hr⟩ := h.rooted
  obtain ⟨h0, h6, -⟩ := hr.running_used
  rw [running_eq] at h0 h6
  have hpde : s.paging.pageDirectory 32 = userEntry s.curr := hr.userPde
  have hdir : ∀ i, i ≠ 32 → s.vid.dir i = s.paging.pageDirectory i := fun i hi =>
    Function.update_of_ne hi ..
  have hprog := fun va => translate_program s.paging va h0 (by omega) hpde
  have hvideo : ∀ va pa, va / 4194304 = 33 → s.paging.translate true va = some pa →
      mapped ∧ (pa / 4096 = 0xB8 ∨
        ∃ t : Fin 3, pa / 4096 = (s.terminals t).videoBuffer / 4096) := by
    intro va pa hva hpa
    rcases h.user.dir33 with h2 | ⟨hm, h33⟩
    · rw [hdir 33 (by decide)] at h2
      rw [translate_of_not_allowed (by rw [hva, h2]; decide)] at hpa
      cases hpa
    · rw [hdir 33 (by decide)] at h33
      obtain ⟨hpage, hbit⟩ := translate_video hva h33 h.user.tableAddr h.user.uvptAddr hpa
      refine ⟨hm, ?_⟩
      rcases h.user.uvpt (va / 4096 % 1024) with hz | hz | ⟨t, hz⟩
      · rw [show s.paging.userVideoPageTable (va / 4096 % 1024) = 0 from hz] at hbit
        cases hbit
      · rw [show s.paging.userVideoPageTable (va / 4096 % 1024) = 0xB8000 ||| 7 from hz] at hpage
        exact .inl (hpage.trans (by decide))
      · refine .inr ⟨t, hpage.trans ?_⟩
        have hb : (s.terminals t).videoBuffer = 0xB9000 + 4096 * t := h.vid.buffer t
        have hv : s.vid.buffer t = (s.terminals t).videoBuffer := rfl
        rw [show s.paging.userVideoPageTable (va / 4096 % 1024) = _ from hz, hv, hb,
          aligned_or (by omega) (by decide)]
        omega
  have hother : ∀ va, va / 4194304 ≠ 32 → va / 4194304 ≠ 33 →
      s.paging.translate true va = none := fun va h32 h33 => by
    refine translate_of_not_allowed ?_
    rw [← hdir _ h32, h.user.dir _ h32 h33]
    exact initPaging_not_allowed _
  refine ⟨⟨h0, by omega⟩, hprog, hvideo, hother, fun va pa hpa q hq0 hq5 hne => ?_⟩
  by_cases h32 : va / 4194304 = 32
  · rw [hprog va h32] at hpa
    obtain rfl := Option.some.inj hpa
    omega
  · by_cases h33 : va / 4194304 = 33
    · obtain ⟨-, hb | ⟨t, hb⟩⟩ := hvideo va pa h33 hpa
      · omega
      · have hbuf : (s.terminals t).videoBuffer = 0xB9000 + 4096 * t := h.vid.buffer t
        omega
    · rw [hother va h32 h33] at hpa
      cases hpa

/-- The shell of terminal 2 maps video memory, and terminal 0 is scheduled. -/
def mapAndTick : List Event := [.vidmap 0x8000000, .tick 0 0 sampleExec]

end Run

end Mp3
