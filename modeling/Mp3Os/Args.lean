import Mp3Os.Io
import Mp3Os.Line

/-!
# The arguments of a process

A shell reads a line `cmd args` and executes `cmd`; the program asks for `args` with
`sys_getargs`. The history `ArgHistory` records the line that each process read last and the line
from which each process was launched, and `GetsArgs` says that a process gets the arguments of
its own line.

The kernel keeps the arguments in one global, `storeargs`, that every `terminal_read` of every
terminal clears and refills (`storeargs_step`). So a request is answered as it should be exactly
if the last line read by anyone has the same arguments (`getsArgs_iff`).
-/

namespace Mp3

/-- A line of the keyboard buffer. -/
structure Line where
  bytes : List UInt8
  length_le : bytes.length ≤ 128

/-- The line that stands in the keyboard buffer. -/
def lineOf (buf : Buf 128) : Line where
  bytes := buf.toList.takeWhile (· ≠ ch '\n')
  length_le := by
    have := (List.takeWhile_sublist (· ≠ ch '\n') (l := buf.toList)).length_le
    simpa using this

namespace Line

variable (l : Line)

/-- The command of a line, as a C string. -/
def command : List UInt8 := cString ((words l.bytes).takeWhile (· ≠ ch ' '))

/-- The arguments of a line, as a C string. -/
def args : List UInt8 := cString (argsOf l.bytes)

/-- The string at `fname` is the command of the line. -/
def NamedBy (fname : Nat → UInt8) : Prop := ∀ i ≤ l.command.length, fname i = l.command.getD i 0

instance (fname : Nat → UInt8) : Decidable (l.NamedBy fname) :=
  inferInstanceAs (Decidable (∀ i ≤ _, _))

end Line

/-- Which lines were read: the last one, the last one of each process, and the one from which
each process was launched. -/
structure ArgHistory where
  last : Line
  read : Int → Option Line
  launched : Int → Option Line

namespace ArgHistory

variable (g : ArgHistory)

/-- No line was read. -/
def empty : ArgHistory := ⟨⟨[], by simp⟩, fun _ => none, fun _ => none⟩

/-- The process `p` ended, or another process got its number. -/
def forget (p : Int) : ArgHistory :=
  { g with read := Function.update g.read p none, launched := Function.update g.launched p none }

/-- The process `p` completed a `terminal_read` of `line`. -/
def noteRead (p : Int) (line : Line) : ArgHistory :=
  { g with last := line, read := Function.update g.read p (some line) }

/-- The process `p` executed `fname` as process `q`. -/
def noteExec (p : Int) (fname : Nat → UInt8) (q : Int) : ArgHistory :=
  { g with
    read := Function.update g.read q none
    launched := Function.update g.launched q ((g.read p).filter fun l => l.NamedBy fname) }

end ArgHistory

/-- The event is a `terminal_read`. -/
def Kernel.readsLine (s : Kernel) : Event → Bool
  | .read fd buf _ _ _ => (s.readTarget fd buf).isTerminal
  | _ => false

/-- The history after an event. A process without a parent that halts is replaced by a new
shell; a failed `execute` may leave its caller under another number. -/
def ArgHistory.note (g : ArgHistory) (s : Kernel) (e : Event) (s' : Kernel) : ArgHistory :=
  match e with
  | .read .. => if s.readsLine e then g.noteRead s.curr (lineOf s.kbd.bufKb) else g
  | .execUser fname _ => g.noteExec s.curr fname s'.curr
  | .execFail .. => if s'.curr = s.curr then g else g.forget s'.curr
  | .tickLaunch .. => g.forget s'.curr
  | .halt .. | .exception .. | .keyFault .. | .vidmapFault .. =>
    if (s.pcbs s.curr).parentPid = -1 then (g.forget s.curr).forget s'.curr else g.forget s.curr
  | _ => g

/-- The kernel with the history of lines. -/
def argTraced : Lts (Kernel × ArgHistory) Event := kernel.withGhost ArgHistory.note

/-- A request for the arguments `a` with a buffer that has room for them. -/
def Fits (a : List UInt8) (n : Int) : Prop := a = [] ∨ (a.length + 1 ≤ n ∧ n ≤ 1024)

/-- A `sys_getargs` yields the arguments `a`: -1 if there are none, otherwise the string. -/
def SysResult.Yields (r : SysResult) (a : List UInt8) : Prop :=
  if a = [] then r.ret = -1 else r.ret = 0 ∧ ∀ i ≤ a.length, r.buf i = a.getD i 0

/-- A process launched from a line gets the arguments of this line. -/
def GetsArgs (p : Kernel × ArgHistory) : Event → Prop
  | .getargs after mem n => ∀ l, p.2.launched p.1.curr = some l → Fits l.args n →
      (p.1.sysGetargs after mem n).Yields l.args
  | _ => True

/-- A process launched from a line asks while the last line that anyone read has the same
arguments. -/
def LastIsOwn (p : Kernel × ArgHistory) : Event → Prop
  | .getargs _ _ n => ∀ l, p.2.launched p.1.curr = some l → Fits l.args n → p.2.last.args = l.args
  | _ => True

/-! ## The global `storeargs` -/

section Step

variable {s s' : Kernel} {e : Event} {g : ArgHistory}

theorem ArgHistory.note_last (h : ¬ s.readsLine e) : (g.note s e s').last = g.last := by
  cases e with
  | read fd buf stack mem n => simp only [note, if_neg h]
  | _ =>
    simp only [note, forget, noteExec]
    try split_ifs <;> rfl

theorem storeargs_of_io {u : Kernel} (h : s'.io = u) (hu : u.storeargs = s.storeargs) :
    s'.storeargs = s.storeargs := by
  rw [← hu, ← h]
  rfl

theorem storeargs_switchTerminal (d : Int) : (s.switchTerminal d).storeargs = s.storeargs :=
  (sameProcs_switchTerminal d).storeargs

theorem storeargs_prepareShell : s.prepareShell.storeargs = s.storeargs :=
  storeargs_switchTerminal (s := s) s.pitCount

theorem storeargs_enterTerminal : s.enterTerminal.storeargs = s.storeargs := rfl

theorem storeargs_finishRead (args : Buf 1024) : (s.finishRead args).storeargs = args := rfl

/-- A completed `terminal_read` stores the arguments of its line. -/
theorem storeargs_terminalRead {n ret : Int} {bytes : List UInt8}
    (h : s.terminalRead n = some (ret, bytes, s')) :
    s'.storeargs = Buf.ofList (argsOf (lineOf s.kbd.bufKb).bytes) := by
  obtain ⟨hw, hn, line, hl⟩ := terminalRead_hasLine h
  have hmem : ch '\n' ∈ s.kbd.bufKb.toList := by
    obtain ⟨-, rest, hr⟩ := hl
    simp [hr]
  rw [terminalRead_line hw (hasLine_of_mem hmem) hn] at h
  cases h
  exact storeargs_finishRead _

theorem storeargs_read {fd : Int} {buf : Nat} {stack mem : Nat → UInt8} {n : Int} {r : SysResult}
    (h : s.sysRead fd buf stack mem n = some r) :
    r.state.storeargs = if s.readsLine (.read fd buf stack mem n) then
      Buf.ofList (argsOf (lineOf s.kbd.bufKb).bytes) else s.storeargs := by
  rcases sysRead_io h with ⟨ht, hi⟩ | ⟨ht, ret, bytes, hr⟩
  · rw [if_neg (by simp [Kernel.readsLine, ht])]
    exact storeargs_of_io hi rfl
  · rw [if_pos (by exact ht)]
    exact storeargs_terminalRead hr

/-- **What every event does to `storeargs`.** -/
theorem storeargs_step (h : s.step e = some s') :
    s'.storeargs =
      if s.readsLine e then Buf.ofList (argsOf (lineOf s.kbd.bufKb).bytes) else s.storeargs := by
  by_cases hread : ∃ fd buf stack mem n, e = .read fd buf stack mem n
  · obtain ⟨fd, buf, stack, mem, n, rfl⟩ := hread
    obtain ⟨-, h⟩ := syscall_eq h
    obtain ⟨r, hr, rfl⟩ := Option.map_eq_some_iff.mp h
    exact storeargs_read hr
  have hno : ¬ s.readsLine e := by
    intro hl
    cases e with
    | read fd buf stack mem n => exact hread ⟨_, _, _, _, _, rfl⟩
    | _ => cases hl
  rw [if_neg hno]
  cases ioStep h with
  | same _ hi => exact storeargs_of_io hi rfl
  | prints text _ hi => exact storeargs_of_io hi rfl
  | tick _ hi => exact storeargs_of_io hi rfl
  | tickLast _ hi => exact storeargs_of_io hi (storeargs_switchTerminal 0)
  | tickFail _ hi =>
    exact storeargs_of_io hi (storeargs_enterTerminal.trans storeargs_prepareShell)
  | tickLaunch _ hi => exact storeargs_of_io hi storeargs_prepareShell
  | @key c st _ hi =>
    have hk := (sameProcs_keyboardHandler (s := s.io) c.toNat st).storeargs
    rw [hi] at hk
    exact hk
  | @keyFault c st _ u _ text hi hs =>
    have hk := (sameProcs_keyboardHandler (s := s.io) c.toNat st).storeargs
    rw [hi] at hk
    exact storeargs_of_io hs hk
  | read hi => exact absurd ⟨_, _, _, _, _, rfl⟩ hread
  | vidmap vram _ hi => exact storeargs_of_io hi rfl
  | vidmapFault vram text _ hi => exact storeargs_of_io hi rfl

/-- The stored arguments are those of the last line read. -/
def ArgHistory.Stored (p : Kernel × ArgHistory) : Prop :=
  p.1.storeargs = Buf.ofList (argsOf p.2.last.bytes)

theorem stored_step {p p' : Kernel × ArgHistory} (h : ArgHistory.Stored p)
    (hs : argTraced.step p e = some p') : ArgHistory.Stored p' := by
  obtain ⟨s, g⟩ := p
  obtain ⟨s', g'⟩ := p'
  obtain ⟨hst, rfl⟩ := Lts.withGhost_step.mp hs
  unfold ArgHistory.Stored at h ⊢
  rw [storeargs_step hst]
  split
  · rename_i hr
    cases e with
    | read fd buf stack mem n => simp only [ArgHistory.note, hr, ↓reduceIte, ArgHistory.noteRead]
    | _ => cases hr
  · rename_i hr
    rw [ArgHistory.note_last hr]
    exact h

end Step

/-! ## The request -/

section Request

variable {s : Kernel} {l : Line} {after mem : Nat → UInt8} {n : Int} {a : List UInt8}

theorem argsOf_length_le (line : List UInt8) : (argsOf line).length ≤ line.length := by
  have h1 := (List.dropWhile_sublist (· = ch ' ') (l := line)).length_le
  have h2 := (List.dropWhile_sublist (· ≠ ch ' ') (l := words line)).length_le
  simp only [argsOf, List.length_drop]
  unfold words at h2 ⊢
  omega

theorem Line.args_length_le (l : Line) : l.args.length ≤ 128 := by
  have h1 := (List.takeWhile_sublist (· ≠ 0) (l := argsOf l.bytes)).length_le
  exact h1.trans ((argsOf_length_le l.bytes).trans l.length_le)

/-- The string that `sys_getargs` finds, apart from its last byte. -/
theorem getargs_getD (h : s.storeargs = Buf.ofList a) {i : Nat} (hi : i < 1023) :
    (terminalGetargs s.storeargs).getD i = a.getD i 0 := by
  rw [Buf.getD, dif_pos (by omega), terminalGetargs, Buf.set_ne _ _ (by simp; omega), h]
  rfl

theorem sysGetargs_none (h : s.storeargs = Buf.ofList a) (h0 : a.getD 0 0 = 0) :
    (s.sysGetargs after mem n).ret = -1 := by
  unfold Kernel.sysGetargs
  dsimp only
  rw [getargs_getD h (by omega), if_pos h0]

theorem sysGetargs_some (after mem : Nat → UInt8) (n : Int) (h : s.storeargs = Buf.ofList a)
    (h0 : a.getD 0 0 ≠ 0) :
    (s.sysGetargs after mem n).ret = 0 ∧
      ∀ i, i < u32 n → i < 1023 → (s.sysGetargs after mem n).buf i = a.getD i 0 := by
  unfold Kernel.sysGetargs
  dsimp only
  rw [getargs_getD h (by omega), if_neg h0]
  refine ⟨rfl, fun i hi hi' => ?_⟩
  simp only [hi, show i < 1024 by omega, ↓reduceIte]
  exact getargs_getD h hi'

/-- **A request yields the arguments `b` exactly if the stored ones are `b`.** -/
theorem yields_iff {b : List UInt8} (h : s.storeargs = Buf.ofList a) (hb : 0 ∉ b)
    (hlen : b.length ≤ 128) (hfit : Fits b n) :
    (s.sysGetargs after mem n).Yields b ↔ cString a = b := by
  rw [cString_eq_iff hb, SysResult.Yields]
  by_cases hnil : b = []
  · subst hnil
    rw [if_pos rfl]
    constructor
    · intro hr i hi
      obtain rfl : i = 0 := Nat.le_zero.mp hi
      by_contra hne
      rw [(sysGetargs_some _ _ _ h hne).1] at hr
      exact absurd hr (by decide)
    · intro hr
      exact sysGetargs_none h (hr 0 (by simp))
  · rw [if_neg hnil]
    obtain ⟨hlo, hhi⟩ := hfit.resolve_left hnil
    have hb0 : b.getD 0 0 ≠ 0 := by
      cases b with
      | nil => exact absurd rfl hnil
      | cons c b => exact fun hc => hb (List.mem_cons.mpr (.inl hc.symm))
    by_cases ha0 : a.getD 0 0 = 0
    · refine iff_of_false (fun hr => ?_) fun hr => hb0 ?_
      · rw [sysGetargs_none h ha0] at hr
        exact absurd hr.1 (by decide)
      · rw [← hr 0 (by simp), ha0]
    · obtain ⟨hret, hbuf⟩ := sysGetargs_some after mem n h ha0
      have hn : (u32 n : Int) = n := by unfold u32; omega
      rw [hret, eq_self, true_and]
      refine forall₂_congr fun i hi => ?_
      rw [hbuf i (by omega) (by omega)]

/-- **A process gets the arguments of its line along a run exactly if it asks while the last line
that anyone read has the same arguments.** -/
theorem getsArgs_iff (b : BootIn) (es : List Event) :
    argTraced.Along GetsArgs (boot b, .empty) es ↔
      argTraced.Along LastIsOwn (boot b, .empty) es := by
  refine Lts.along_congr (I := ArgHistory.Stored) (fun _ _ _ h hs => stored_step h hs) ?_ rfl
  rintro ⟨s, g⟩ e h
  cases e with
  | getargs after mem n =>
    refine forall_congr' fun l => forall₂_congr fun _ hfit => ?_
    exact yields_iff h (zero_notMem_cString _) l.args_length_le hfit
  | _ => exact Iff.rfl

/-- A read of the keyboard with room for a line. -/
def sampleRead : Event := .read 0 0x8000000 (fun _ => 0) (fun _ => 0) 128

/-- A shell reads `ls a` and executes `ls`, which reads the line `b`. -/
def readsInBetween : List Event :=
  sampleLaunches ++ sampleKeys [0x26, 0x1F, 0x39, 0x1E, 0x1C] ++
    [sampleRead, .execUser (memory [(0, lit ['l', 's'])]) sampleExec] ++
    sampleKeys [0x30, 0x1C] ++ [sampleRead]

/-- Then `ls` asks for its arguments. -/
theorem getargs_loses_arguments :
    (argTraced.run (boot sampleBoot, .empty)
      (readsInBetween ++ [.getargs (fun _ => 0) (fun _ => 0) 1024])).isSome ∧
    ¬ argTraced.Along GetsArgs (boot sampleBoot, .empty)
      (readsInBetween ++ [.getargs (fun _ => 0) (fun _ => 0) 1024]) := by
  refine ⟨by decide +kernel, fun ha => ?_⟩
  have hv : (argTraced.run (boot sampleBoot, .empty) readsInBetween).map (fun p =>
      ((p.2.launched p.1.curr).map Line.args,
        (p.1.sysGetargs (fun _ => 0) (fun _ => 0) 1024).ret)) = some (some [ch 'a'], -1) := by
    decide +kernel
  obtain ⟨⟨s, g⟩, hs, hv⟩ := Option.map_eq_some_iff.mp hv
  simp only [Prod.mk.injEq] at hv
  obtain ⟨l, hl, hargs⟩ := Option.map_eq_some_iff.mp hv.1
  have hy := ha.at_event hs l hl (by rw [hargs]; exact .inr (by decide))
  rw [hargs] at hy
  exact absurd (hv.2.symm.trans hy.1) (by decide)

end Request

end Mp3
