import Mp3Os.Keyboards

/-!
# The scans of the keyboard buffer

`terminal_read` scans `buf_kb` for a newline, and the branch of `keyboard_handler` for characters
calls `strlen` on it. Neither has a bound: the byte must be there.

Enter puts the newline behind the line and the index back to 0, and the line stays in the buffer
until it is read. Ctrl+L and Up take it away, and characters typed before the read go over it.
`KbState.KeepsLine` is that none of these takes the last newline of a waiting line; `Kbd.Full` is
a line of 127 characters, which leaves no room for a zero byte.

`KbState.Lined` is the invariant of a driver: a key keeps it exactly if it keeps the line
(`KbState.press_lined_iff`).
-/

namespace Mp3

/-- The key gets to the branch for characters, where `strlen` is called. -/
def Kbd.Types (k : Kbd) (f : Flags) (scanCode : Nat) : Prop :=
  modifierKey f scanCode = none ∧ scanCode ≠ 0x48 ∧ ¬ (f.ctrl ≠ 0 ∧ scanCode = 0x26) ∧
    ¬ (scanCode = 0x0E ∧ k.currIdx ≠ 0) ∧ scanCode ≠ 0x1C ∧ ¬ isSwitch f scanCode ∧
    k.numChars < 127 ∧ 0 < scanCode ∧ scanCode < 0x3B

instance (k : Kbd) (f : Flags) (scanCode : Nat) : Decidable (k.Types f scanCode) :=
  inferInstanceAs (Decidable (_ ∧ _))

/-- The buffer has 127 characters and a newline. -/
def Kbd.Full (k : Kbd) : Prop :=
  k.bufKb 127 = ch '\n' ∧ ∀ i : Fin 128, i.1 < 127 → k.bufKb i ≠ 0

instance (k : Kbd) : Decidable k.Full := inferInstanceAs (Decidable (_ ∧ _))

/-- The key does not take the last newline of a waiting line: it is not Ctrl+L, not Up, and not
a character that goes where the only newline is. -/
def KbState.KeepsLine (k : KbState) (f : Flags) (scanCode : Nat) : Prop :=
  k.enterFlag = 0 → modifierKey f scanCode = none →
    ¬ (f.ctrl ≠ 0 ∧ scanCode = 0x26) ∧ scanCode ≠ 0x48 ∧
    (k.kbd.Types f scanCode → keyChar f scanCode ≠ 0 →
      ∃ i : Fin 128, (i : Int) ≠ k.kbd.currIdx ∧ k.kbd.bufKb i = ch '\n')

instance (k : KbState) (f : Flags) (scanCode : Nat) : Decidable (k.KeepsLine f scanCode) :=
  inferInstanceAs (Decidable (_ → _))

/-- What the scans rely on. -/
structure KbState.Lined (k : KbState) : Prop where
  newline : k.enterFlag = 0 → ∃ i, k.kbd.bufKb i = ch '\n'
  last : k.kbd.bufKb 127 = 0 ∨ k.kbd.bufKb 127 = ch '\n' ∧ k.enterFlag = 0
  prev : ∀ i : Fin 128, k.kbd.previousNumChars ≤ i → k.kbd.previousBuf i = 0

/-- What the loops of a `terminal_read` that has left its wait loop do: they end in the buffer,
and so do the copies into `storeargs`. -/
structure Kernel.ReadInside (s : Kernel) : Prop where
  newline : ∃ i, s.kbd.bufKb i = ch '\n'
  spaces : (s.kbd.bufKb.toList.takeWhile (· = ch ' ')).length < 128
  args : ∀ max, ∃ count a,
    argScan (stripped s.kbd.bufKb) 128 0 ⟨Buf.zero, -1, 0, max⟩ = some (count, a) ∧
    count < 128 ∧ 0 ≤ a.offsetArg ∧ a.offsetArg ≤ count

/-- A `terminal_read` that leaves its wait loop in this state finds a newline. -/
def ReadsInside (s : Kernel) : Prop := ¬ s.ReadWaits → s.ReadInside

/-- A key that calls `strlen` finds a zero byte. -/
def StrlenInside (s : Kernel) : Event → Prop
  | .key c _ | .keyFault c .. => s.kbd.Types s.flags c.toNat → ∃ i, s.kbd.bufKb i = 0
  | _ => True

/-- A key neither takes the last newline of a waiting line nor types behind a full one. -/
def KeepsTerminators (s : Kernel) : Event → Prop
  | .key c _ | .keyFault c .. => s.activeKb.KeepsLine s.flags c.toNat ∧
      (s.activeKb.enterFlag = 0 → s.kbd.Types s.flags c.toNat → ¬ s.kbd.Full)
  | _ => True

instance (s : Kernel) (e : Event) : Decidable (KeepsTerminators s e) :=
  match e with
  | .key .. | .keyFault .. => inferInstanceAs (Decidable (_ ∧ _))
  | .tick .. | .tickLaunch .. | .execUser .. | .execFail .. | .halt .. | .exception .. => isTrue trivial
  | .openFd .. | .closeFd .. | .read .. | .write .. | .getargs .. => isTrue trivial
  | .vidmap .. | .vidmapFault .. => isTrue trivial

/-- Such a key is handled by `charKey`, which asks for the length of the line first. -/
theorem keyboardHandler_types {s : Kernel} {c : Nat} (h : s.kbd.Types s.flags c) (st : Stack) :
    s.keyboardHandler c st = .ret (s.beginKey.charKey c).endKey := by
  obtain ⟨hm, hup, hctrl, hback, henter, hs, hchar⟩ := h
  have hedit : s.beginKey.editKey c = .ret (s.beginKey.charKey c) :=
    calc s.beginKey.editKey c
      _ = _ := if_neg hctrl
      _ = _ := if_neg hback
      _ = _ := if_neg henter
      _ = _ := if_neg hs
      _ = _ := if_pos hchar
  unfold Kernel.keyboardHandler
  rw [hm]
  simp only [if_neg hup, hedit]

/-! ## The loops of a read -/

section Loops

variable {buf : Buf 128} {fuel count n : Nat} {a b : ArgScan}

theorem mem_toList {v : UInt8} : v ∈ buf.toList ↔ ∃ i, buf i = v := List.mem_ofFn

theorem next_offsetArg (a : ArgScan) (count : Nat) (c : UInt8) :
    (a.next count c).offsetArg = a.offsetArg ∨ (a.next count c).offsetArg = a.offsetArg + 1 ∨
      (a.next count c).offsetArg = 0 := by
  unfold ArgScan.next
  dsimp only
  split_ifs <;> simp

/-- The scan ends at a newline of the buffer, and it stores at most one byte a round. -/
theorem argScan_bounds (h : argScan buf fuel count a = some (n, b))
    (ho : 0 ≤ a.offsetArg ∧ a.offsetArg ≤ count) :
    n < 128 ∧ 0 ≤ b.offsetArg ∧ b.offsetArg ≤ n := by
  induction fuel generalizing count a with
  | zero => cases h
  | succ fuel ih =>
    rw [argScan] at h
    split at h
    · rename_i hb
      cases h
      refine ⟨?_, ho⟩
      by_contra hn
      rw [Buf.getD, dif_neg hn] at hb
      exact absurd hb (by decide)
    · apply ih h
      rcases next_offsetArg a count (buf.getD count) with he | he | he <;> rw [he] <;> omega

/-- A newline ends both scans. -/
theorem readInside_of_newline {s : Kernel} (h : ∃ i, s.kbd.bufKb i = ch '\n') : s.ReadInside := by
  have hline := hasLine_of_mem (mem_toList.mpr h)
  obtain ⟨hnl, rest, hr⟩ := hasLine_stripped hline
  refine ⟨h, ?_, fun max => ?_⟩
  · -- the newline is no space, so the spaces before it are fewer than the bytes
    obtain ⟨i, hi⟩ := h
    by_contra hlen
    have hall := (List.takeWhile_sublist (· = ch ' ') (l := s.kbd.bufKb.toList)).eq_of_length_le
      (by rw [Buf.length_toList]; omega)
    have hspace := List.mem_takeWhile_imp (hall ▸ mem_toList.mpr ⟨i, hi⟩)
    exact absurd hspace (by decide)
  · have hscan := argScan_line 0 ⟨Buf.zero, -1, 0, max⟩ hnl (by simpa using hr)
      (hasLine_stripped hline).length_lt
    exact ⟨_, _, hscan, argScan_bounds hscan ⟨Int.le_refl 0, Int.le_refl 0⟩⟩

end Loops

/-! ## The driver -/

namespace KbState

variable {k : KbState}

/-- `strlen` ends in the buffer exactly if the buffer is not full. -/
theorem Lined.zero_iff (h : k.Lined) : (∃ i, k.kbd.bufKb i = 0) ↔ ¬ k.kbd.Full := by
  constructor
  · rintro ⟨i, hi⟩ ⟨hlast, hchars⟩
    by_cases hlt : i.1 < 127
    · exact hchars i hlt hi
    · obtain rfl : i = 127 := by omega
      rw [hi] at hlast
      exact absurd hlast (by decide)
  · intro hf
    by_contra hz
    have hne : ∀ i, k.kbd.bufKb i ≠ 0 := fun i hi => hz ⟨i, hi⟩
    rcases h.last with h0 | ⟨hn, -⟩
    · exact hne 127 h0
    · exact hf ⟨hn, fun i _ => hne i⟩

/-- A full line waits. -/
theorem Lined.waits_of_full (h : k.Lined) (hf : k.kbd.Full) : k.enterFlag = 0 := by
  rcases h.last with h0 | ⟨-, hw⟩
  · exact absurd (hf.1.symm.trans h0) (by decide)
  · exact hw

/-- A line that was recalled has no newline. -/
theorem Lined.prev_ne_newline (h : k.Lined) (hk : k.kbd.Ok) (i : Fin 128) :
    k.kbd.previousBuf i ≠ ch '\n' := by
  by_cases hi : (i : Int) < k.kbd.previousNumChars
  · exact hk.prevLine i hi
  · rw [h.prev i (by omega)]
    decide

theorem Lined.prev_last (h : k.Lined) (hk : k.kbd.Ok) : k.kbd.previousBuf 127 = 0 :=
  h.prev 127 hk.prevLe

/-- A change of the line that leaves the previous one alone. -/
theorem Lined.of_zero (h : k.Lined) (kbd : Kbd) (hp : kbd.previousBuf = k.kbd.previousBuf)
    (hn : kbd.previousNumChars = k.kbd.previousNumChars) (hlast : kbd.bufKb 127 = 0)
    (hnl : ∀ i, kbd.bufKb i ≠ ch '\n') (e : Int) : (⟨kbd, e⟩ : KbState).Lined ↔ e ≠ 0 := by
  constructor
  · intro hl he
    obtain ⟨i, hi⟩ := hl.newline he
    exact hnl i hi
  · intro he
    refine ⟨fun h0 => absurd h0 he, .inl hlast, ?_⟩
    rw [hp, hn]
    exact h.prev

theorem lined_recallLine (h : k.Lined) (hk : k.kbd.Ok) (e : Int) :
    (⟨k.kbd.recallLine, e⟩ : KbState).Lined ↔ e ≠ 0 :=
  h.of_zero k.kbd.recallLine rfl rfl (h.prev_last hk) (h.prev_ne_newline hk) e

theorem lined_clearLine (h : k.Lined) (e : Int) :
    (⟨k.kbd.clearLine, e⟩ : KbState).Lined ↔ e ≠ 0 :=
  h.of_zero k.kbd.clearLine rfl rfl rfl zero_ne_newline e

theorem lined_consume (h : k.Lined) : k.consume.Lined :=
  (h.of_zero { k.kbd with bufKb := Buf.zero } rfl rfl rfl zero_ne_newline 1).mpr
    (by decide)

theorem lined_finishLine (h : k.Lined) (hk : k.kbd.Ok) : (⟨k.kbd.finishLine, 0⟩ : KbState).Lined := by
  have hidx := hk.idx
  have h0 := hk.nonneg
  have h1 := hk.le
  have hbuf : k.kbd.finishLine.bufKb = k.kbd.bufKb.set k.kbd.currIdx (ch '\n') := by
    unfold Kbd.finishLine
    split <;> rfl
  refine ⟨fun _ => ⟨⟨k.kbd.currIdx.toNat, by omega⟩, ?_⟩, ?_, ?_⟩
  · simp only [hbuf, Buf.set]
    rw [if_pos (by omega)]
  · simp only [hbuf, Buf.set]
    split
    · exact .inr ⟨rfl, trivial⟩
    · exact h.last.imp_right fun hl => ⟨hl.1, trivial⟩
  · simp only [Kbd.finishLine]
    split
    · intro i hi
      simp only [Buf.copyPrefix]
      rw [if_neg (by simp only at hi; omega)]
      rfl
    · exact h.prev

/-- A character takes the newline at its index. -/
theorem lined_addChar (h : k.Lined) (hk : k.kbd.Ok) (hlt : k.kbd.numChars < 127) {c : UInt8}
    (hc : c ≠ ch '\n') (x y : Nat) :
    (⟨(k.kbd.notePosition x y).addChar c, k.enterFlag⟩ : KbState).Lined ↔
      (k.enterFlag = 0 → ∃ i : Fin 128, (i : Int) ≠ k.kbd.currIdx ∧ k.kbd.bufKb i = ch '\n') := by
  have hidx := hk.idx
  have hbuf : ((k.kbd.notePosition x y).addChar c).bufKb = k.kbd.bufKb.set k.kbd.currIdx c := by
    unfold Kbd.notePosition
    split <;> rfl
  have hprev : ((k.kbd.notePosition x y).addChar c).previousBuf = k.kbd.previousBuf ∧
      ((k.kbd.notePosition x y).addChar c).previousNumChars = k.kbd.previousNumChars := by
    unfold Kbd.notePosition
    split <;> exact ⟨rfl, rfl⟩
  constructor
  · intro hl he
    obtain ⟨i, hi⟩ := hl.newline he
    simp only [hbuf, Buf.set] at hi
    split at hi
    · exact absurd hi hc
    · rename_i hne
      exact ⟨i, hne, hi⟩
  · intro hi
    refine ⟨fun he => ?_, ?_, ?_⟩
    · obtain ⟨i, hne, hnl⟩ := hi he
      exact ⟨i, by simp only [hbuf, Buf.set]; rwa [if_neg hne]⟩
    · have h127 : ((127 : Fin 128) : Int) ≠ k.kbd.currIdx := by
        show (127 : Int) ≠ _
        omega
      simp only [hbuf, Buf.set]
      rw [if_neg h127]
      exact h.last
    · simp only [hprev.1, hprev.2]
      exact h.prev

/-- **A key keeps what the scans rely on exactly if it keeps the line.** -/
theorem press_lined_iff (h : k.Lined) (hk : k.kbd.Ok) (f : Flags) (x y c : Nat) :
    (k.press f x y c).Lined ↔ k.KeepsLine f c := by
  unfold press
  cases hm : modifierKey f c with
  | some f' => exact iff_of_true h fun _ hn => nomatch hm.symm.trans hn
  | none =>
    rw [if_neg (by simp)]
    by_cases hup : c = 0x48
    · rw [if_pos hup, lined_recallLine h hk]
      exact ⟨fun he h0 => absurd h0 he, fun hl h0 => (hl h0 hm).2.1 hup⟩
    rw [if_neg hup, edit]
    by_cases hctrl : f.ctrl ≠ 0 ∧ c = 0x26
    · rw [if_pos hctrl, lined_clearLine h]
      exact ⟨fun he h0 => absurd h0 he, fun hl h0 => (hl h0 hm).1 hctrl⟩
    rw [if_neg hctrl]
    -- from here on the key is neither Up nor Ctrl+L, and takes the line only if it types
    have hkeep : ¬ k.kbd.Types f c → k.KeepsLine f c :=
      fun ht _ _ => ⟨hctrl, hup, fun ht' => absurd ht' ht⟩
    by_cases hback : c = 0x0E ∧ k.kbd.currIdx ≠ 0
    · rw [if_pos hback]
      exact iff_of_true ⟨h.newline, h.last, h.prev⟩ (hkeep fun ht => ht.2.2.2.1 hback)
    rw [if_neg hback]
    by_cases henter : c = 0x1C
    · rw [if_pos henter]
      exact iff_of_true (lined_finishLine h hk) (hkeep fun ht => ht.2.2.2.2.1 henter)
    rw [if_neg henter]
    by_cases hs : isSwitch f c
    · rw [if_pos hs]
      exact iff_of_true h (hkeep fun ht => ht.2.2.2.2.2.1 hs)
    rw [if_neg hs]
    by_cases hchar : k.kbd.numChars < 127 ∧ 0 < c ∧ c < 0x3B
    · have ht : k.kbd.Types f c := ⟨hm, hup, hctrl, hback, henter, hs, hchar⟩
      rw [if_pos hchar]
      dsimp only
      split
      · rename_i hb
        rw [lined_addChar h hk hchar.1 (keyChar_ne_newline f c)]
        exact ⟨fun hi h0 _ => ⟨hctrl, hup, fun _ _ => hi h0⟩, fun hl h0 => (hl h0 hm).2.2 ht hb⟩
      · rename_i hb
        refine iff_of_true ?_ fun _ _ => ⟨hctrl, hup, fun _ hb' => absurd hb' hb⟩
        unfold Kbd.notePosition
        split <;> exact ⟨h.newline, h.last, h.prev⟩
    · rw [if_neg hchar]
      exact iff_of_true h (hkeep fun ht => hchar ht.2.2.2.2.2.2)

end KbState

/-! ## Runs -/

section Run

variable {s s' : Kernel} {e : Event}

/-- The drivers of all terminals have what the scans rely on. -/
structure Kernel.AllLined (s : Kernel) : Prop where
  cursors : s.CursorsOk
  lines : s.LinesOk
  vid : s.vid.Wf
  lined : ∀ t : Fin 3, (s.kbState t).Lined

theorem Kernel.AllLined.visible (h : s.AllLined) : s.activeKb.Lined := by
  obtain ⟨v, hv⟩ := h.vid.visible
  have hl := h.lined v
  rw [← show s.visible = v from hv, kbState_visible] at hl
  exact hl

/-- **One event that keeps the terminators.** -/
theorem allLined_step (h : s.AllLined) (hg : KeepsTerminators s e) (hs : s.step e = some s') :
    s'.AllLined := by
  refine ⟨cursorsOk_step h.cursors hs, linesOk_step h.cursors h.lines hs, vid_wf_step h.vid hs, ?_⟩
  have hi := keyboardsIndependent_of_ok h.cursors h.lines e s' hs
  intro t
  cases e with
  | key c st =>
    rw [hi t]
    split
    · rename_i ht
      rw [KbState.press_lined_iff (h.lined t) (h.lines t), ht, kbState_visible]
      exact hg.1
    · exact h.lined t
  | keyFault c st xs =>
    obtain ⟨kbd, hkbd, hk⟩ := kbState_keyFault h.cursors hs
    rw [hk]
    split
    · rcases hkbd with rfl | ⟨hup, rfl⟩
      · exact h.visible
      · apply (KbState.lined_recallLine (k := s.activeKb) h.visible h.lines.kbd _).mpr
        intro h0
        have hm : modifierKey s.flags c.toNat = none := by rw [hup]; rfl
        exact (hg.1 h0 hm).2.1 hup
    · exact h.lined t
  | read fd buf stack mem n =>
    rw [hi t]
    split
    · exact KbState.lined_consume (h.lined t)
    · exact h.lined t
  | _ =>
    rw [hi t]
    exact h.lined t

theorem allLined_boot (b : BootIn) : (boot b).AllLined := by
  refine ⟨cursorsOk_boot b, linesOk_boot b, vid_wf_boot b, fun t => ?_⟩
  have hz : (⟨⟨Buf.zero, 0, 0, 0, 0, Buf.zero, 0⟩, 1⟩ : KbState).Lined :=
    ⟨fun h => absurd h (by decide), .inl rfl, fun i _ => rfl⟩
  have hb : (boot b).kbState t = ⟨⟨Buf.zero, 0, 0, 0, 0, Buf.zero, 0⟩, 1⟩ := by
    match t with
    | 0 | 1 | 2 => rfl
  rw [hb]
  exact hz

theorem readsInside_of_lined (h : s.AllLined) : ReadsInside s := by
  intro hw
  have hflag : s.activeKb.enterFlag = 0 := by
    by_contra hne
    exact hw (.inl hne)
  exact readInside_of_newline (h.visible.newline hflag)

theorem strlenInside_of_lined (h : s.AllLined) (hg : KeepsTerminators s e) : StrlenInside s e := by
  cases e with
  | key c st =>
    intro ht
    exact h.visible.zero_iff.mpr fun hf => hg.2 (h.visible.waits_of_full hf) ht hf
  | keyFault c st xs =>
    intro ht
    exact h.visible.zero_iff.mpr fun hf => hg.2 (h.visible.waits_of_full hf) ht hf
  | _ => trivial

/-- `ls` and Enter, and an `a` before the read: it goes over the `l`, and the newline stays. -/
def typesAhead : List Event :=
  sampleLaunches ++ sampleKeys [0x26, 0x1F, 0x1C, 0x1E] ++
    [.read 0 0x8000000 (fun _ => 0) (fun _ => 0) 128]

/-- `a` and Enter, and `bc` before the read: the `c` goes over the newline. -/
def typesOver : List Event := sampleLaunches ++ sampleKeys [0x1E, 0x1C, 0x30, 0x2E]

end Run

end Mp3
