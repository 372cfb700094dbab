import Mp3Os.Io

/-!
# Video mappings

`Vid` is the part of the state that decides where the video pages of users go: the page
directory apart from the entry of the running program, the table `user_video_page_table`, the
buffers, and which terminal is visible and which is scheduled. `vidStep` says what every event
does to it.

The entry of a terminal is meant to follow the screen: `VIDEO_MEM` while the terminal is visible,
its buffer otherwise (`UvFollows`). `switch_terminal` keeps this, but `vid_map` always enters
`VIDEO_MEM`. So it holds along a run exactly if programs call `vidmap` on visible terminals only
(`uvFollows_iff`).
-/

namespace Mp3

/-- What decides the video pages of users. -/
@[ext] structure Vid where
  dir : Nat → Nat
  tableAddr : Nat
  uvptAddr : Nat
  uvpt : Nat → Nat
  buffer : Int → Nat
  visible : Int
  cur : Int

/-- The video mappings of a state. -/
def Kernel.vid (s : Kernel) : Vid where
  dir := Function.update s.paging.pageDirectory 32 0
  tableAddr := s.paging.pageTableAddr
  uvptAddr := s.paging.userVideoPageTableAddr
  uvpt := s.paging.userVideoPageTable
  buffer t := (s.terminals t).videoBuffer
  visible := s.visible
  cur := s.curTerminal

namespace Vid

variable (v : Vid)

/-- `switch_terminal`. -/
def switch (d : Int) : Vid :=
  if d = v.visible then v
  else
    { v with
      uvpt := Function.update (Function.update v.uvpt v.visible.toNat (v.buffer v.visible ||| 7))
        d.toNat (0xB8000 ||| 7)
      visible := d }

/-- The next terminal is scheduled. -/
def next : Vid := { v with cur := (v.cur + 1) % 3 }

/-- `vid_map`. -/
def map : Vid :=
  { v with
    dir := Function.update v.dir 33 (v.uvptAddr ||| 7)
    uvpt := Function.update v.uvpt v.cur.toNat (0xB8000 ||| 7) }

end Vid

/-! ## The operations of the kernel on the video mappings -/

section Operations

variable {s : Kernel}

theorem vid_io : s.io.vid = s.vid := by
  simp [Kernel.vid, Kernel.io, Terminal.io]

/-- A change to other fields of a terminal. -/
theorem vid_modTerm {t : Int} {f : Terminal → Terminal}
    (h : (f (s.terminals t)).videoBuffer = (s.terminals t).videoBuffer) :
    (s.modTerm t f).vid = s.vid := by
  have hu : ∀ u, (Function.update s.terminals t (f (s.terminals t)) u).videoBuffer =
      (s.terminals u).videoBuffer := by
    intro u
    by_cases hut : u = t
    · subst hut; simp [h]
    · simp [hut]
  simp only [Kernel.vid, Kernel.modTerm, hu]

theorem vid_saveScreen (t : Int) : (s.saveScreen t).vid = s.vid := vid_modTerm rfl

theorem vid_setEnterFlag (t v : Int) : (s.setEnterFlag t v).vid = s.vid := vid_modTerm rfl

theorem vid_print (text : List UInt8) : (s.print text).vid = s.vid := rfl

theorem vid_leaveTerminal : s.leaveTerminal.vid = s.vid.next := by
  have h := vid_saveScreen (s := s.countInterrupt) s.curTerminal
  calc s.leaveTerminal.vid
      = { (s.countInterrupt.saveScreen s.curTerminal).vid with
          cur := (s.curTerminal + 1) % 3 } := rfl
    _ = s.vid.next := by rw [h]; rfl

theorem vid_enterTerminal : s.enterTerminal.vid = s.vid := rfl

theorem vid_saveVisible : s.saveVisible.vid =
    { s.vid with
      uvpt := Function.update s.vid.uvpt s.visible.toNat (s.vid.buffer s.visible ||| 7) } := by
  have h := vid_modTerm (s := s) (t := s.visible) (f := fun t => t.save s.con s.kbd) rfl
  rw [← h]
  simp [Kernel.vid, Kernel.saveVisible, Kernel.modTerm, Terminal.save]

theorem vid_switchTerminal {d : Int} (h3 : d ≤ 3) : (s.switchTerminal d).vid = s.vid.switch d := by
  unfold Vid.switch
  rw [show s.vid.visible = s.visible from rfl]
  split
  · rename_i hv
    rw [hv, Kernel.switchTerminal_visible]
  · rename_i hv
    rw [Kernel.switchTerminal_of_ne hv h3]
    calc (s.saveVisible.restoreTerminal d).vid
        = { s.saveVisible.vid with
            uvpt := Function.update s.saveVisible.vid.uvpt d.toNat (0xB8000 ||| 7)
            visible := d } := rfl
      _ = _ := by rw [vid_saveVisible]

theorem vid_freshScreen : s.freshScreen.vid = s.vid := vid_saveScreen (s := s.clearScreen) _

theorem vid_prepareShell (h : s.pitCount ≤ 3) : s.prepareShell.vid = s.vid.switch s.pitCount := by
  rw [Kernel.prepareShell, vid_freshScreen, vid_switchTerminal (by omega)]

/-! ### Keys -/

theorem vid_beginKey : s.beginKey.vid = s.vid := vid_saveScreen (s := s) _

theorem vid_endKey : s.endKey.vid = s.vid := vid_saveScreen (s := s.mapWindow) _

theorem vid_upKey (st : Stack) : (s.upKey st).state.vid = s.vid := by
  unfold Kernel.upKey
  dsimp only
  split
  · split <;> rfl
  · rfl

theorem vid_charKey (c : Nat) : (s.charKey c).vid = s.vid := by
  unfold Kernel.charKey
  dsimp only
  split <;> rfl

theorem vid_backKey : s.backKey.state.vid = s.vid := by
  unfold Kernel.backKey
  split <;> rfl

/-- A key edits the line or switches. -/
theorem editKey_vid (c : Nat) :
    (s.editKey c).state.vid = s.vid ∨
      ∃ (d : Fin 3) (u : Kernel), s.editKey c = .ret u ∧ u.vid = s.vid.switch d := by
  unfold Kernel.editKey
  split
  · exact .inl rfl
  split
  · exact .inl vid_backKey
  split
  · exact .inl (vid_setEnterFlag ..)
  split
  · rename_i hs
    have hc : c = 0x3B ∨ c = 0x3C ∨ c = 0x3D := hs.1
    refine .inr ⟨⟨c - 0x3B, by omega⟩, _, rfl, ?_⟩
    rw [vid_switchTerminal (by omega)]
    congr 1
    simp only
    omega
  split
  · exact .inl (vid_charKey c)
  · exact .inl rfl

/-- A key that faults does not switch. -/
theorem keyboardHandler_fault_vid {c : Nat} {st : Stack} {u : Kernel}
    (h : s.keyboardHandler c st = .fault u) : u.vid = s.vid := by
  unfold Kernel.keyboardHandler at h
  split at h
  · cases h
  · dsimp only at h
    split at h
    · cases h
    · rename_i s' hr
      cases h
      rw [← vid_beginKey (s := s)]
      split at hr
      · rw [← vid_upKey (s := s.beginKey) st, hr]; rfl
      · rcases editKey_vid (s := s.beginKey) c with hv | ⟨d, u', hr', -⟩
        · rw [← hv, hr]; rfl
        · rw [hr] at hr'; cases hr'

/-- A key that returns may have switched. -/
theorem keyboardHandler_ret_vid {c : Nat} {st : Stack} {u : Kernel}
    (h : s.keyboardHandler c st = .ret u) : u.vid = s.vid ∨ ∃ d : Fin 3, u.vid = s.vid.switch d := by
  unfold Kernel.keyboardHandler at h
  split at h
  · cases h; exact .inl rfl
  · dsimp only at h
    split at h
    · rename_i s' hr
      cases h
      rw [← vid_beginKey (s := s), vid_endKey]
      split at hr
      · exact .inl (by rw [← vid_upKey (s := s.beginKey) st, hr]; rfl)
      · rcases editKey_vid (s := s.beginKey) c with hv | ⟨d, u', hr', hv⟩
        · exact .inl (by rw [← hv, hr]; rfl)
        · rw [hr] at hr'
          cases hr'
          exact .inr ⟨d, hv⟩
    · cases h

end Operations

/-! ## What an event does to the video mappings -/

/-- Every way in which an event can change the video mappings. -/
inductive VidStep (s : Kernel) : Event → Kernel → Prop
  | stay {e : Event} {s' : Kernel} : ¬ e.maps → s'.vid = s.vid → VidStep s e s'
  | next {e : Event} {s' : Kernel} : ¬ e.maps → s'.vid = s.vid.next → VidStep s e s'
  | switch {e : Event} {s' : Kernel} (d : Fin 3) : ¬ e.maps → s'.vid = s.vid.switch d →
      VidStep s e s'
  | nextSwitch {e : Event} {s' : Kernel} (d : Fin 3) : ¬ e.maps → s'.vid = s.vid.next.switch d →
      VidStep s e s'
  | map {e : Event} {s' : Kernel} : e.maps → s'.vid = s.vid.map → VidStep s e s'

section Step

variable {s s' : Kernel} {e : Event}

theorem vid_vidMappedIo (vram : Nat → UInt8) : (s.io.vidMappedIo vram).vid = s.vid.map := by
  rw [← vid_io (s := s)]
  simp [Kernel.vid, Kernel.vidMappedIo, Vid.map, Paging.vidMapEntries, Function.update_comm]

/-- **What every event does to the video mappings.** -/
theorem vidStep (h : s.step e = some s') : VidStep s e s' := by
  cases ioStep h with
  | same hm hi => exact .stay hm (by rw [← vid_io, hi, vid_io])
  | prints text hm hi => exact .stay hm (by rw [← vid_io, hi, vid_print, vid_io])
  | tick _ hi =>
    exact .next id (by rw [← vid_io, hi, vid_enterTerminal, vid_leaveTerminal, vid_io])
  | tickLast _ hi =>
    refine .nextSwitch 0 id ?_
    rw [← vid_io, hi, vid_enterTerminal]
    exact (vid_switchTerminal (by decide)).trans (by rw [vid_leaveTerminal, vid_io]; rfl)
  | tickFail hc hi =>
    refine .nextSwitch ⟨s.pitCount, hc⟩ id ?_
    rw [← vid_io, hi, vid_enterTerminal, vid_prepareShell (by exact Nat.le_of_lt hc),
      vid_leaveTerminal, vid_io]
    rfl
  | tickLaunch hc hi =>
    refine .nextSwitch ⟨s.pitCount, hc⟩ id ?_
    rw [← vid_io, hi, vid_prepareShell (by exact Nat.le_of_lt hc), vid_leaveTerminal, vid_io]
    rfl
  | key hi =>
    rcases keyboardHandler_ret_vid hi with hv | ⟨d, hv⟩ <;> rw [vid_io, vid_io] at hv
    · exact .stay id hv
    · exact .switch d id hv
  | keyFault text hi hs =>
    have hv := keyboardHandler_fault_vid hi
    exact .stay id (by rw [← vid_io, hs, vid_print, hv, vid_io])
  | read hi =>
    obtain ⟨-, _, a, -, -, -, -, hs⟩ := terminalRead_eq hi
    refine .stay id ?_
    rw [← vid_io, hs]
    exact (vid_setEnterFlag ..).trans vid_io
  | vidmap vram ha hi => exact .map ha (by rw [← vid_io, hi, vid_vidMappedIo])
  | vidmapFault vram text ha hi =>
    exact .map ha (by rw [← vid_io, hi, vid_print, vid_vidMappedIo])

end Step

/-! ## The video entries follow the screen -/

/-- The entry of a terminal, if present, maps the VGA page while the terminal is visible and its
buffer while it is not. -/
def UvFollows (s : Kernel) : Prop :=
  ∀ t : Fin 3, (s.paging.userVideoPageTable t).testBit 0 →
    s.paging.userVideoPageTable t / 4096 * 4096 =
      if (t : Int) = s.visible then 0xB8000 else (s.terminals t).videoBuffer

/-- A `vid_map` happens on the visible terminal. -/
def MapsVisible (s : Kernel) (e : Event) : Prop := e.maps → s.curTerminal = s.visible

/-- The buffers are the three pages after the VGA page, and the terminals are 0 to 2. -/
structure Vid.Wf (v : Vid) : Prop where
  visible : ∃ i : Fin 3, v.visible = i
  cur : ∃ i : Fin 3, v.cur = i
  buffer : ∀ t : Fin 3, v.buffer t = 0xB9000 + 4096 * t

/-- `UvFollows` in terms of the video mappings. -/
def Vid.Follows (v : Vid) : Prop :=
  ∀ t : Fin 3, (v.uvpt t).testBit 0 →
    v.uvpt t / 4096 * 4096 = if (t : Int) = v.visible then 0xB8000 else v.buffer t

namespace Vid

variable {v : Vid}

theorem Wf.next (h : v.Wf) : v.next.Wf := by
  obtain ⟨i, hi⟩ := h.cur
  refine ⟨h.visible, ⟨⟨(i + 1) % 3, by omega⟩, ?_⟩, h.buffer⟩
  simp only [Vid.next]
  omega

theorem Wf.switch (h : v.Wf) (d : Fin 3) : (v.switch d).Wf := by
  unfold Vid.switch
  split
  · exact h
  · exact ⟨⟨d, rfl⟩, h.cur, h.buffer⟩

theorem Wf.map (h : v.Wf) : v.map.Wf := ⟨h.visible, h.cur, h.buffer⟩

theorem Follows.switch (hw : v.Wf) (h : v.Follows) (d : Fin 3) : (v.switch d).Follows := by
  obtain ⟨i, hi⟩ := hw.visible
  unfold Vid.switch
  split
  · exact h
  · rename_i hne
    rw [hi] at hne
    intro t
    have ht := h t
    simp only [hi, Int.toNat_natCast] at ht ⊢
    by_cases htd : t = d
    · subst htd
      simp
    · have h1 : (t : Nat) ≠ d := fun he => htd (Fin.ext he)
      have h2 : ¬ (t : Int) = d := by omega
      by_cases hti : t = i
      · subst hti
        intro _
        rw [if_neg h2, Function.update_of_ne h1, Function.update_self, hw.buffer,
          aligned_or_page (by omega) (by decide)]
      · have h3 : (t : Nat) ≠ i := fun he => hti (Fin.ext he)
        have h4 : ¬ (t : Int) = i := by omega
        rw [if_neg h4] at ht
        rw [if_neg h2, Function.update_of_ne h1, Function.update_of_ne h3]
        exact ht

/-- `vid_map` keeps the entries in step with the screen exactly if the terminal is visible. -/
theorem follows_map_iff (hw : v.Wf) (h : v.Follows) : v.map.Follows ↔ v.cur = v.visible := by
  obtain ⟨i, hi⟩ := hw.cur
  constructor
  · intro hm
    have ht := hm i
    simp only [Vid.map, hi, Int.toNat_natCast, Function.update_self] at ht
    by_contra hne
    rw [if_neg (by rwa [hi] at hne), hw.buffer] at ht
    have := ht (by decide)
    rw [show (753664 ||| 7) / 4096 * 4096 = 753664 by decide] at this
    omega
  · intro hv t ht
    simp only [Vid.map, hi, Int.toNat_natCast] at ht ⊢
    by_cases hti : t = i
    · subst hti
      rw [Function.update_self, if_pos (by rw [← hv, hi])]
      decide
    · have h3 : (t : Nat) ≠ i := fun he => hti (Fin.ext he)
      rw [Function.update_of_ne h3] at ht ⊢
      exact h t ht

end Vid

section Run

variable {s s' : Kernel} {e : Event}

theorem vid_wf_step (h : s.vid.Wf) (hs : s.step e = some s') : s'.vid.Wf := by
  cases vidStep hs with
  | stay _ hv => exact hv ▸ h
  | next _ hv => exact hv ▸ h.next
  | switch d _ hv => exact hv ▸ h.switch d
  | nextSwitch d _ hv => exact hv ▸ h.next.switch d
  | map _ hv => exact hv ▸ h.map

/-- **One step keeps the entries in step with the screen exactly if no background terminal
maps.** -/
theorem uvFollows_step (hw : s.vid.Wf) (h : s.vid.Follows) (hs : s.step e = some s') :
    s'.vid.Follows ↔ MapsVisible s e := by
  cases vidStep hs with
  | stay hm hv => exact iff_of_true (hv ▸ h) fun he => absurd he hm
  | next hm hv =>
    refine iff_of_true ?_ fun he => absurd he hm
    rw [hv]
    exact h
  | switch d hm hv => exact iff_of_true (hv ▸ h.switch hw d) fun he => absurd he hm
  | nextSwitch d hm hv =>
    refine iff_of_true ?_ fun he => absurd he hm
    rw [hv]
    exact Vid.Follows.switch hw.next h d
  | map hm hv =>
    rw [hv, Vid.follows_map_iff hw h]
    exact ⟨fun hc _ => hc, fun hc => hc hm⟩

theorem vid_wf_boot (b : BootIn) : (boot b).vid.Wf := by
  refine ⟨⟨0, rfl⟩, ⟨2, rfl⟩, fun t => ?_⟩
  simp only [boot, Kernel.vid, Kernel.initPIT, Kernel.initTerminals]
  rw [if_pos (by omega)]
  simp only [Int.toNat_natCast]
  omega

/-- **The video entries follow the screen in every state of a run exactly if programs call
`vidmap` on visible terminals only.** -/
theorem uvFollows_iff {b : BootIn} {es : List Event} (hr : (kernel.run (boot b) es).isSome) :
    kernel.Always UvFollows (boot b) es ↔ kernel.Along MapsVisible (boot b) es := by
  obtain ⟨s', hr⟩ := Option.isSome_iff_exists.mp hr
  refine Lts.always_iff_along (I := fun s => s.vid.Wf) (fun _ _ _ hw hs => vid_wf_step hw hs)
    (fun _ _ _ hw h hs => uvFollows_step hw h hs) (vid_wf_boot b) ?_ hr
  intro t ht
  simp [boot, Kernel.initPIT, Kernel.initTerminals, Kernel.initPCB, preBoot, Paging.initPaging] at ht

/-- The small machine maps on a visible terminal. -/
theorem uvFollows_sample :
    (kernel.run (boot sampleBoot) (sampleLaunches ++ [.vidmap 0x8000000])).isSome ∧
    (kernel.Always UvFollows (boot sampleBoot) (sampleLaunches ++ [.vidmap 0x8000000]) ↔
      kernel.Along MapsVisible (boot sampleBoot) (sampleLaunches ++ [.vidmap 0x8000000])) := by
  have hr : (kernel.run (boot sampleBoot) (sampleLaunches ++ [.vidmap 0x8000000])).isSome := by
    decide +kernel
  exact ⟨hr, uvFollows_iff hr⟩

/-- A program of terminal 1 calls `vidmap` while terminal 2 is visible. -/
def mapsBehind : List Event :=
  [sampleLaunch, sampleLaunch] ++ sampleKeys [0x38, 0x3D] ++ [.vidmap 0x8000000]

theorem vidmap_behind_reaches_screen :
    (kernel.run (boot sampleBoot) mapsBehind).isSome ∧
    ¬ kernel.Always UvFollows (boot sampleBoot) mapsBehind := by
  have hv : (kernel.run (boot sampleBoot) mapsBehind).map (fun s =>
      (s.paging.userVideoPageTable 1, s.visible, (s.terminals 1).videoBuffer)) =
      some (0xB8007, 2, 0xBA000) := by decide +kernel
  obtain ⟨s, hs, hv⟩ := Option.map_eq_some_iff.mp hv
  simp only [Prod.mk.injEq] at hv
  refine ⟨by simp [hs], fun ha => ?_⟩
  have h1 := (ha.last hs : UvFollows s) 1
  rw [show ((1 : Fin 3) : Nat) = 1 from rfl, hv.1, hv.2.1] at h1
  have := h1 (by decide)
  rw [if_neg (by decide)] at this
  exact absurd (this.trans hv.2.2) (by decide)

end Run

end Mp3
