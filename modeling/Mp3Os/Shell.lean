import Mp3Os.Support
import Mp3Os.UserCalls

/-!
# The shell (`ece391shell.c`)

The program as a client of the kernel: it prompts, reads a line, and executes what the read
delivered. Beside any other processes the commands that it has executed are, in their order, the
commands of the lines that it has read, and it ends after the first line `exit` (`shell_runs_lines`).
A line of the shell goes to `sys_read`, which gives it the command only; `Line.command` is what the
kernel cuts out of the keyboard buffer.

The kernel never sets `ret_val`, so the shell never reports how a program ended
(`shell_never_reports`).
-/

namespace Mp3

def shellBanner : List UInt8 :=
  lit ['S', 't', 'a', 'r', 't', 'i', 'n', 'g', ' ', '3', '9', '1', ' ', 'S', 'h', 'e', 'l', 'l', '\n']

def shellPrompt : List UInt8 := lit ['3', '9', '1', 'O', 'S', '>', ' ']

def shellReadFailed : List UInt8 :=
  lit ['r', 'e', 'a', 'd', ' ', 'f', 'r', 'o', 'm', ' ', 'k', 'e', 'y', 'b', 'o', 'a', 'r', 'd', ' ',
    'f', 'a', 'i', 'l', 'e', 'd', '\n']

def shellNoCommand : List UInt8 :=
  lit ['n', 'o', ' ', 's', 'u', 'c', 'h', ' ', 'c', 'o', 'm', 'm', 'a', 'n', 'd', '\n']

def shellException : List UInt8 :=
  lit ['p', 'r', 'o', 'g', 'r', 'a', 'm', ' ', 't', 'e', 'r', 'm', 'i', 'n', 'a', 't', 'e', 'd', ' ',
    'b', 'y', ' ', 'e', 'x', 'c', 'e', 'p', 't', 'i', 'o', 'n', '\n']

def shellAbnormal : List UInt8 :=
  lit ['p', 'r', 'o', 'g', 'r', 'a', 'm', ' ', 't', 'e', 'r', 'm', 'i', 'n', 'a', 't', 'e', 'd', ' ',
    'a', 'b', 'n', 'o', 'r', 'm', 'a', 'l', 'l', 'y', '\n']

def shellExit : List UInt8 := lit ['e', 'x', 'i', 't']

/-- Where `main` is, with its `buf`. -/
inductive Shell where
  | banner (buf : Nat → UInt8)
  | prompt (buf : Nat → UInt8)
  | reads (buf : Nat → UInt8)
  | readFailed
  | runs (buf : Nat → UInt8)
  | message (text : List UInt8) (buf : Nat → UInt8)
  | exits (status : Int)

namespace Shell

/-- The call that `main` makes next. -/
def call : Shell → Option UserCall
  | banner _ => some (fdputs shellBanner)
  | prompt _ => some (fdputs shellPrompt)
  | reads buf => some (.read 0 buf 1023)
  | readFailed => some (fdputs shellReadFailed)
  | runs buf => some (.execute buf)
  | message text _ => some (fdputs text)
  | exits _ => none

/-- The line that a read of `cnt` bytes has left in `buf`, without its newline. -/
def strip (buf : Nat → UInt8) (cnt : Int) : Nat → UInt8 :=
  let cnt := if 0 < cnt ∧ buf (cnt - 1).toNat = ch '\n' then cnt - 1 else cnt
  Function.update buf cnt.toNat 0

/-- Where `main` goes on with a result. -/
def resume : Shell → UserResult → Shell
  | banner buf, _ => prompt buf
  | prompt buf, _ => reads buf
  | reads _, r =>
    if r.ret = -1 then readFailed
    else
      let buf := strip r.mem r.ret
      if ece391Strcmp buf shellExit = 0 then exits 0
      else if buf 0 = 0 then prompt buf
      else runs buf
  | readFailed, _ => exits 3
  | runs buf, r =>
    if r.ret = -1 then message shellNoCommand buf
    else if r.ret = 256 then message shellException buf
    else if r.ret ≠ 0 then message shellAbnormal buf
    else prompt buf
  | message _ buf, _ => prompt buf
  | exits status, _ => exits status

end Shell

/-- The program. -/
def shellProgram : Client UserCall UserResult := ⟨Shell, Shell.call, Shell.resume⟩

/-- The shell as process `p`, beside the others. -/
def shellBeside (p : Int) : Lts (Session Kernel UserCall Shell) (Move UserIn Event) :=
  shellProgram.beside (processService p) kernel (Kernel.NotBy p)

/-- The line that a call has read: the one that stood in the keyboard buffer. -/
def lineRead : Kernel × UserCall → Option Line
  | (s, .read ..) => some (lineOf s.kbd.bufKb)
  | _ => none

/-- The lines that some calls have read. -/
def linesRead (log : List (Kernel × UserCall)) : List Line := log.filterMap lineRead

/-- The command that a call executes. -/
def commandRun : Kernel × UserCall → Option (Nat → UInt8)
  | (_, .execute command) => some command
  | _ => none

/-- The commands that some calls have executed. -/
def commandsRun (log : List (Kernel × UserCall)) : List (Nat → UInt8) := log.filterMap commandRun

/-- A line with a command for `execute`. -/
def Line.Runs (l : Line) : Prop := l.command ≠ [] ∧ l.command ≠ shellExit

instance (l : Line) : Decidable l.Runs := inferInstanceAs (Decidable (_ ∧ _))

/-- The command that is read and not executed yet. -/
def Shell.pending : Shell → Bool → List (Nat → UInt8)
  | runs buf, false => [buf]
  | _, _ => []

/-! ## A line -/

section ReadLine

variable {a line : List UInt8}

/-- The memory after a read of `a`, with or without a newline behind it. -/
theorem strip_bytes (mem : Nat → UInt8) (hnl : ch '\n' ∉ a) {bytes : List UInt8}
    (hb : bytes = a ∨ bytes = a ++ [ch '\n']) :
    ∀ i ≤ a.length, Shell.strip (fun i => if i < bytes.length then bytes.getD i 0 else mem i)
      bytes.length i = a.getD i 0 := by
  intro i hi
  have hcnt : (if 0 < (bytes.length : Int) ∧ (fun i => if i < bytes.length then bytes.getD i 0
      else mem i) ((bytes.length : Int) - 1).toNat = ch '\n' then (bytes.length : Int) - 1
      else bytes.length) = a.length := by
    rcases hb with rfl | rfl
    · refine if_neg fun h => hnl ?_
      obtain ⟨h0, h⟩ := h
      have hlt : ((bytes.length : Int) - 1).toNat < bytes.length := by omega
      simp only [if_pos hlt, List.getD_eq_getElem _ _ hlt] at h
      exact h ▸ List.getElem_mem hlt
    · rw [if_pos]
      · simp
      · simp
  unfold Shell.strip
  rw [hcnt, Int.toNat_natCast, Function.update_apply]
  split
  · rename_i h
    rw [h, List.getD_eq_default _ _ (Nat.le_refl _)]
  · have hlt : i < a.length := by omega
    rcases hb with rfl | rfl
    · exact if_pos hlt
    · rw [if_pos (by simp; omega), List.getD_append _ _ _ _ hlt]

/-- **What the shell makes of a read**: the command of the line. -/
theorem isName_strip (mem : Nat → UInt8) (hnl : ch '\n' ∉ line) :
    IsName (Shell.strip (fun i => if i < (readBytes line).length then (readBytes line).getD i 0
      else mem i) (readBytes line).length) (cString ((words line).takeWhile (· ≠ ch ' '))) := by
  have hsub : ∀ {b : UInt8}, b ∈ (words line).takeWhile (· ≠ ch ' ') → b ∈ line := fun hb =>
    (List.dropWhile_sublist _).mem ((List.takeWhile_sublist _).mem hb)
  refine isName_cString (strip_bytes mem (fun h => hnl (hsub h)) ?_)
  unfold readBytes
  split
  · exact .inl rfl
  · rename_i hs
    right
    rw [List.takeWhile_eq_self_iff.mpr]
    intro b hb
    exact decide_eq_true fun h => hs (h ▸ hb)

variable {s : Kernel} {r : SysResult}

/-- What a read from the keyboard gives: all that the line has for the reader. -/
theorem sysRead_line {addr : Nat} {stack mem : Nat → UInt8} (ha : addr ≠ 0)
    (h : s.sysRead 0 addr stack mem 1023 = some r) :
    let bytes := readBytes (lineOf s.kbd.bufKb).bytes
    r.ret = bytes.length ∧ (r.buf = fun i => if i < bytes.length then bytes.getD i 0 else mem i) ∧
      ch '\n' ∉ (lineOf s.kbd.bufKb).bytes := by
  have ht : s.readTarget 0 addr = .terminal := by
    unfold Kernel.readTarget
    rw [if_neg (by decide), if_neg ha, if_pos rfl]
  rw [Kernel.sysRead, ht] at h
  obtain ⟨⟨ret, bytes, s'⟩, hread, rfl⟩ := Option.map_eq_some_iff.mp h
  obtain ⟨hw, hn, line, hl⟩ := terminalRead_hasLine hread
  have hmem : ch '\n' ∈ s.kbd.bufKb.toList := by
    obtain ⟨-, rest, hr⟩ := hl
    simp [hr]
  have hline : HasLine s.kbd.bufKb (lineOf s.kbd.bufKb).bytes := hasLine_of_mem hmem
  have hlen : (readBytes (lineOf s.kbd.bufKb).bytes).length ≤ 128 := by
    have h1 := hline.length_lt
    have h2 := (List.dropWhile_sublist (· = ch ' ') (l := (lineOf s.kbd.bufKb).bytes)).length_le
    have h3 := (List.takeWhile_sublist (· ≠ ch ' ') (l := words (lineOf s.kbd.bufKb).bytes)).length_le
    unfold readBytes
    split
    · unfold words at h3 ⊢
      omega
    · rw [List.length_append, List.length_singleton]
      unfold words
      omega
  rw [terminalRead_line hw hline hn] at hread
  simp only [Option.some.injEq, Prod.mk.injEq] at hread
  obtain ⟨rfl, rfl, -⟩ := hread
  have htake : (readBytes (lineOf s.kbd.bufKb).bytes).take (1023 : Int).toNat =
      readBytes (lineOf s.kbd.bufKb).bytes := List.take_of_length_le (by omega)
  refine ⟨by dsimp only; omega, ?_, hline.1⟩
  dsimp only
  rw [htake]

/-- **Where the shell goes on after a read**: to its end, to the next prompt, or to `execute` with
the command of the line. -/
theorem resume_reads {addr : Nat} {stack mem : Nat → UInt8} (buf : Nat → UInt8) (ha : addr ≠ 0)
    (h : s.sysRead 0 addr stack mem 1023 = some r) :
    ∃ buf', IsName buf' (lineOf s.kbd.bufKb).command ∧
      (Shell.reads buf).resume ⟨r.ret, r.buf⟩ =
        if (lineOf s.kbd.bufKb).command = shellExit then .exits 0
        else if (lineOf s.kbd.bufKb).command = [] then .prompt buf'
        else .runs buf' := by
  obtain ⟨hret, hbuf, hnl⟩ := sysRead_line ha h
  have hname := isName_strip mem hnl
  rw [← hbuf, ← hret] at hname
  have hexit : ece391Strcmp (Shell.strip r.buf r.ret) shellExit = 0 ↔
      (lineOf s.kbd.bufKb).command = shellExit := by
    rw [ece391Strcmp_eq_zero (by decide)]
    exact ⟨fun h => hname.unique h, fun h => h ▸ hname⟩
  have hempty : Shell.strip r.buf r.ret 0 = 0 ↔ (lineOf s.kbd.bufKb).command = [] := by
    constructor
    · intro h0
      refine hname.unique ⟨by simp, fun i hi => ?_⟩
      obtain rfl : i = 0 := Nat.le_zero.mp hi
      exact h0
    · intro hnil
      have hb := hname.bytes 0 (Nat.zero_le _)
      rw [hb]
      show (lineOf s.kbd.bufKb).command.getD 0 0 = 0
      rw [hnil]
      rfl
  refine ⟨_, hname, ?_⟩
  simp only [Shell.resume, if_neg (show ¬ r.ret = -1 by omega), hexit, hempty]

end ReadLine

/-! ## The commands that are executed -/

section Log

variable (log : List (Kernel × UserCall)) (c : Kernel × UserCall)

theorem linesRead_append : linesRead (log ++ [c]) = linesRead log ++ (lineRead c).toList := by
  rw [linesRead, List.filterMap_append]
  cases h : lineRead c <;> simp [h, linesRead]

theorem commandsRun_append :
    commandsRun (log ++ [c]) = commandsRun log ++ (commandRun c).toList := by
  rw [commandsRun, List.filterMap_append]
  cases h : commandRun c <;> simp [h, commandsRun]

end Log

/-- The invariant of the shell: the lines and the commands up to here. -/
structure ShellInv (x : Session Kernel UserCall Shell) : Prop where
  ran : List.Forall₂ Line.NamedBy ((linesRead x.log).filter Line.Runs)
    (commandsRun x.log ++ x.prog.pending x.waiting)
  waits : x.waiting = true → ∃ buf, x.prog = .runs buf
  early : ∀ l ∈ (linesRead x.log).dropLast, l.command ≠ shellExit
  ended : x.prog = .exits 0 ↔ ∃ l ∈ linesRead x.log, l.command = shellExit

section Invariant

variable {s s' : Kernel} {a : Shell} {log : List (Kernel × UserCall)} {x : UserIn} {q : UserCall}
  {r : UserResult}

/-- A call that neither reads nor executes, after which the shell has nothing to execute. -/
theorem ShellInv.quiet {a' : Shell} (h : ShellInv ⟨s, a, false, log⟩) (hl : lineRead (s, q) = none)
    (hc : commandRun (s, q) = none) (hp : a.pending false = []) (hp' : a'.pending false = [])
    (ha : a = .exits 0 ↔ a' = .exits 0) : ShellInv ⟨s', a', false, log ++ [(s, q)]⟩ := by
  have hlines : linesRead (log ++ [(s, q)]) = linesRead log := by simp [linesRead_append, hl]
  have hruns : commandsRun (log ++ [(s, q)]) = commandsRun log := by simp [commandsRun_append, hc]
  obtain ⟨hran, -, hearly, hended⟩ := h
  refine ⟨?_, nofun, ?_, ?_⟩
  · dsimp only at hran ⊢
    rw [hlines, hruns, hp', ← hp]
    exact hran
  · dsimp only
    rw [hlines]
    exact hearly
  · dsimp only
    rw [hlines, ← ha]
    exact hended

/-- Before it has ended the shell has read no line `exit`. -/
theorem ShellInv.noExit {y : Session Kernel UserCall Shell} (h : ShellInv y) (ha : y.prog ≠ .exits 0) :
    ∀ l ∈ linesRead y.log, l.command ≠ shellExit :=
  fun l hl he => ha (h.ended.mpr ⟨l, hl, he⟩)

/-- A read. -/
theorem shellInv_read {buf buf' : Nat → UInt8} (h : ShellInv ⟨s, .reads buf, false, log⟩)
    (hl : lineRead (s, q) = some (lineOf s.kbd.bufKb)) (hc : commandRun (s, q) = none)
    (hname : IsName buf' (lineOf s.kbd.bufKb).command) {a' : Shell}
    (ha : a' = if (lineOf s.kbd.bufKb).command = shellExit then .exits 0
      else if (lineOf s.kbd.bufKb).command = [] then .prompt buf' else .runs buf') :
    ShellInv ⟨s', a', false, log ++ [(s, q)]⟩ := by
  have hlines : linesRead (log ++ [(s, q)]) = linesRead log ++ [lineOf s.kbd.bufKb] := by
    simp [linesRead_append, hl]
  have hruns : commandsRun (log ++ [(s, q)]) = commandsRun log := by simp [commandsRun_append, hc]
  have hno := h.noExit nofun
  have hran : List.Forall₂ Line.NamedBy ((linesRead log).filter Line.Runs) (commandsRun log) := by
    simpa [Shell.pending] using h.ran
  refine ⟨?_, nofun, ?_, ?_⟩
  · dsimp only
    rw [hlines, hruns, List.filter_append, ha]
    split
    · rename_i he
      rw [List.filter_cons_of_neg (by simp [Line.Runs, he]), List.filter_nil, List.append_nil]
      exact by simpa [Shell.pending] using hran
    · split
      · rename_i he
        rw [List.filter_cons_of_neg (by simp [Line.Runs, he]), List.filter_nil, List.append_nil]
        exact by simpa [Shell.pending] using hran
      · rename_i hne hnil
        rw [List.filter_cons_of_pos (by simp [Line.Runs, hne, hnil]), List.filter_nil]
        exact List.rel_append hran (.cons hname.bytes .nil)
  · dsimp only
    rw [hlines, List.dropLast_concat]
    exact hno
  · dsimp only
    rw [hlines, ha]
    split
    · rename_i he
      exact iff_of_true rfl ⟨_, List.mem_append_right _ (List.mem_singleton_self _), he⟩
    · rename_i he
      refine iff_of_false (by split <;> nofun) ?_
      rintro ⟨l, hl, hle⟩
      rcases List.mem_append.mp hl with hl | hl
      · exact hno l hl hle
      · exact he (List.mem_singleton.mp hl ▸ hle)

/-- An `execute`, after which the command is not pending any more. -/
theorem shellInv_execute {buf : Nat → UInt8} {a' : Shell} {waiting : Bool}
    (h : ShellInv ⟨s, .runs buf, false, log⟩) (hp : a'.pending waiting = [])
    (hw : waiting = true → ∃ b, a' = .runs b) (ha : a' ≠ .exits 0) :
    ShellInv ⟨s', a', waiting, log ++ [(s, .execute buf)]⟩ := by
  have hlines : linesRead (log ++ [(s, .execute buf)]) = linesRead log := by
    simp [linesRead_append, lineRead]
  have hruns : commandsRun (log ++ [(s, .execute buf)]) = commandsRun log ++ [buf] := by
    simp [commandsRun_append, commandRun]
  refine ⟨?_, hw, ?_, ?_⟩
  · dsimp only
    rw [hlines, hruns, hp, List.append_nil]
    exact h.ran
  · dsimp only
    rw [hlines]
    exact h.early
  · dsimp only
    rw [hlines]
    refine iff_of_false ha ?_
    rintro ⟨l, hl, he⟩
    exact h.noExit nofun l hl he

/-- After an `execute` the shell prints a message or the prompt. -/
theorem resume_runs (buf : Nat → UInt8) (r : UserResult) :
    (∃ text, (Shell.runs buf).resume r = .message text buf) ∨
      (Shell.runs buf).resume r = .prompt buf := by
  simp only [Shell.resume]
  split_ifs
  · exact .inl ⟨_, rfl⟩
  · exact .inl ⟨_, rfl⟩
  · exact .inl ⟨_, rfl⟩
  · exact .inr rfl

/-- **A call that returns.** -/
theorem shellInv_ret (h : ShellInv ⟨s, a, false, log⟩) (hq : a.call = some q)
    (hs : s.serve x q = some (some r, s')) : ShellInv ⟨s', a.resume r, false, log ++ [(s, q)]⟩ := by
  cases a with
  | banner buf => cases hq; exact h.quiet rfl rfl rfl rfl (iff_of_false nofun nofun)
  | prompt buf => cases hq; exact h.quiet rfl rfl rfl rfl (iff_of_false nofun nofun)
  | readFailed => cases hq; exact h.quiet rfl rfl rfl rfl (iff_of_false nofun nofun)
  | message text buf => cases hq; exact h.quiet rfl rfl rfl rfl (iff_of_false nofun nofun)
  | exits status => cases hq
  | reads buf =>
    cases hq
    obtain ⟨u, hu, hs⟩ := Option.map_eq_some_iff.mp hs
    cases hs
    obtain ⟨buf', hname, ha⟩ := resume_reads buf x.addr_ne hu
    exact shellInv_read h rfl rfl hname ha
  | runs buf =>
    cases hq
    rcases resume_runs buf r with ⟨text, ha⟩ | ha <;> rw [ha]
    · exact shellInv_execute h rfl nofun nofun
    · exact shellInv_execute h rfl nofun nofun

/-- A call that blocks is that of a command. -/
theorem runs_of_blocks (hq : a.call = some q) (hs : s.serve x q = some (none, s')) :
    ∃ buf, a = .runs buf ∧ q = .execute buf := by
  obtain ⟨command, rfl⟩ := execute_of_blocks hs
  cases a with
  | runs buf =>
    cases hq
    exact ⟨_, rfl, rfl⟩
  | _ => cases hq

/-- **A command that is started.** -/
theorem shellInv_block (h : ShellInv ⟨s, a, false, log⟩) (hq : a.call = some q)
    (hs : s.serve x q = some (none, s')) : ShellInv ⟨s', a, true, log ++ [(s, q)]⟩ := by
  obtain ⟨buf, rfl, rfl⟩ := runs_of_blocks hq hs
  exact shellInv_execute h rfl (fun _ => ⟨buf, rfl⟩) nofun

/-- **The program that was started has ended.** -/
theorem shellInv_wake (h : ShellInv ⟨s, a, true, log⟩) (r : UserResult) :
    ShellInv ⟨s, a.resume r, false, log⟩ := by
  obtain ⟨buf, rfl⟩ : ∃ buf, a = .runs buf := h.waits rfl
  have hno := h.noExit nofun
  rcases resume_runs buf r with ⟨text, ha⟩ | ha <;> rw [ha]
  · exact ⟨h.ran, nofun, h.early, iff_of_false nofun fun ⟨l, hl, he⟩ => hno l hl he⟩
  · exact ⟨h.ran, nofun, h.early, iff_of_false nofun fun ⟨l, hl, he⟩ => hno l hl he⟩

end Invariant

section Runs

variable {s : Kernel} {p : Int} {y : Session Kernel UserCall Shell} {ms : List (Move UserIn Event)}
  {buf : Nat → UInt8}

theorem shellInv_start (s : Kernel) (buf : Nat → UInt8) :
    ShellInv (Session.start s (.banner buf)) :=
  ⟨.nil, nofun, nofun, iff_of_false nofun nofun⟩

/-- **The shell runs its lines.** Beside any other processes, the commands that the shell has
executed are those of the lines with a command that it has read, in the same order; only the last
one may still be to execute. It ends after the first line `exit`, with status 0, and reads no more. -/
theorem shell_runs_lines
    (hr : (shellBeside p).run (Session.start s (.banner buf)) ms = some y) :
    List.Forall₂ Line.NamedBy ((linesRead y.log).filter Line.Runs)
        (commandsRun y.log ++ y.prog.pending y.waiting) ∧
      (y.prog = .exits 0 ↔ ∃ l ∈ linesRead y.log, l.command = shellExit) ∧
      ∀ l ∈ (linesRead y.log).dropLast, l.command ≠ shellExit := by
  have hinv : ShellInv y := by
    refine Client.beside_inv (C := shellProgram) (G := fun _ _ => True) ?_ ?_ ?_ ?_
      (shellInv_start s buf) Lts.along_true hr
    · intro s a log x q r s' hi hq hs
      exact shellInv_ret hi hq (processService_serve.mp hs).2
    · intro s a log x q s' hi hq hs
      exact shellInv_block hi hq (processService_serve.mp hs).2
    · intro s a log q r hi _ _
      exact shellInv_wake hi r
    · intro x e s' hi _ _ _
      exact ⟨hi.ran, hi.waits, hi.early, hi.ended⟩
  exact ⟨hinv.ran, hinv.ended, hinv.early⟩

/-! ## What the shell reports -/

/-- The shell goes on, and reports nothing but that a command is not known. -/
def Shell.Plain : Shell → Prop
  | readFailed => False
  | message text _ => text = shellNoCommand
  | exits status => status = 0
  | _ => True

/-- What the shell writes. -/
def shellTexts : List (List UInt8) := [[], shellBanner, shellPrompt, shellNoCommand]

/-- `ret_val` is 0, and the shell has written these texts only. -/
structure ShellPlain (x : Session Kernel UserCall Shell) : Prop where
  zero : x.sys.retVal = 0
  waits : x.waiting = true → ∃ buf, x.prog = .runs buf
  texts : ∀ c ∈ x.log, c.2.output ∈ shellTexts
  plain : x.prog.Plain

theorem plain_resume {s s' : Kernel} {a : Shell} {x : UserIn} {q : UserCall} {r : UserResult}
    (ha : a.Plain) (hq : a.call = some q) (hs : s.serve x q = some (some r, s')) :
    (a.resume r).Plain := by
  cases a with
  | banner buf => trivial
  | prompt buf => trivial
  | readFailed => exact ha.elim
  | message text buf => trivial
  | exits status => cases hq
  | reads buf =>
    cases hq
    obtain ⟨u, hu, hs⟩ := Option.map_eq_some_iff.mp hs
    cases hs
    obtain ⟨buf', -, ha⟩ := resume_reads buf x.addr_ne hu
    rw [ha]
    split
    · rfl
    · split <;> trivial
  | runs buf =>
    cases hq
    simp only [Kernel.serve] at hs
    split at hs
    · cases hs
    · cases hs
      rfl

theorem call_texts {a : Shell} {q : UserCall} (ha : a.Plain) (hq : a.call = some q) :
    q.output ∈ shellTexts := by
  cases a with
  | banner buf => cases hq; simp [shellTexts]
  | prompt buf => cases hq; simp [shellTexts]
  | reads buf => cases hq; simp [shellTexts]
  | readFailed => exact ha.elim
  | runs buf => cases hq; exact List.mem_cons_self ..
  | message text buf =>
    cases hq
    rw [output_fdputs, show text = shellNoCommand from ha]
    simp [shellTexts]
  | exits status => cases hq

/-- **The shell never reports how a program ended.** In every run from boot, whatever status the
programs end with and whatever exceptions they cause, the shell writes its banner, its prompt and
`no such command` only, and ends with status 0. -/
theorem shell_never_reports {b : BootIn} {es : List Event} (hs : kernel.run (boot b) es = some s)
    (hr : (shellBeside p).run (Session.start s (.banner buf)) ms = some y) :
    (∀ c ∈ y.log, c.2.output ∈ shellTexts) ∧ ∀ status, y.prog = .exits status → status = 0 := by
  have hzero : s.retVal = 0 := Lts.run_inv' (M := kernel) (I := fun u => u.retVal = 0)
    (fun _ _ _ hu h => (retVal_step h).trans hu) rfl hs
  have hstart : ShellPlain (Session.start s (.banner buf)) :=
    ⟨hzero, nofun, fun _ hc => absurd hc List.not_mem_nil, trivial⟩
  have hinv : ShellPlain y := by
    refine Client.beside_inv (C := shellProgram) (G := fun _ _ => True) ?_ ?_ ?_ ?_ hstart
      Lts.along_true hr
    · intro s a log x q r s' hi hq hs
      obtain ⟨hp, hs⟩ := processService_serve.mp hs
      refine ⟨(retVal_step (serve_step hp hs)).trans hi.zero, nofun, ?_, plain_resume hi.plain hq hs⟩
      exact List.forall_mem_append.mpr
        ⟨hi.texts, List.forall_mem_singleton.mpr (call_texts hi.plain hq)⟩
    · intro s a log x q s' hi hq hs
      obtain ⟨hp, hs⟩ := processService_serve.mp hs
      obtain ⟨buf, ha, -⟩ := runs_of_blocks hq hs
      refine ⟨(retVal_step (serve_step hp hs)).trans hi.zero, fun _ => ⟨buf, ha⟩, ?_, hi.plain⟩
      exact List.forall_mem_append.mpr
        ⟨hi.texts, List.forall_mem_singleton.mpr (call_texts hi.plain hq)⟩
    · intro s a log q r hi hq hw
      obtain ⟨buf, rfl⟩ : ∃ buf, a = .runs buf := hi.waits rfl
      cases hq
      obtain ⟨-, hw⟩ := processService_wake.mp hw
      cases hw
      refine ⟨hi.zero, nofun, hi.texts, ?_⟩
      have h0 : s.retVal = 0 := hi.zero
      simp only [shellProgram, Shell.resume, h0]
      trivial
    · intro x e s' hi _ _ hs
      exact ⟨(retVal_step hs).trans hi.zero, hi.waits, hi.texts, hi.plain⟩
  refine ⟨hinv.texts, fun status hst => ?_⟩
  have hp := hinv.plain
  rw [hst] at hp
  exact hp

/-- `ls` is typed on terminal 2 of the small machine. -/
def typesLs : List Event := sampleLaunches ++ sampleKeys [0x26, 0x1F, 0x1C]

/-- The shell there runs it, a division by zero ends it, and the shell prompts again. -/
def shellMoves : List (Move UserIn Event) :=
  let own : Move UserIn Event := .own sampleIn
  [own, own, own, own, .other (.exception 0 []), own, own]

theorem shell_runs_lines_sample : ∃ s y, kernel.run (boot sampleBoot) typesLs = some s ∧
    (shellBeside 2).run (Session.start s (.banner fun _ => 0)) shellMoves = some y ∧
    (linesRead y.log).map Line.command = [lit ['l', 's']] ∧
    List.Forall₂ Line.NamedBy ((linesRead y.log).filter Line.Runs)
      (commandsRun y.log ++ y.prog.pending y.waiting) := by
  have hv : (kernel.run (boot sampleBoot) typesLs).bind (fun s =>
      ((shellBeside 2).run (Session.start s (.banner fun _ => 0)) shellMoves).map fun y =>
        (linesRead y.log).map Line.command) = some [lit ['l', 's']] := by decide +kernel
  obtain ⟨s, hs, hv⟩ := Option.bind_eq_some_iff.mp hv
  obtain ⟨y, hy, hv⟩ := Option.map_eq_some_iff.mp hv
  exact ⟨s, y, hs, hy, hv, (shell_runs_lines hy).1⟩

theorem shell_never_reports_sample : ∃ s y, kernel.run (boot sampleBoot) typesLs = some s ∧
    (shellBeside 2).run (Session.start s (.banner fun _ => 0)) shellMoves = some y ∧
    ∀ c ∈ y.log, c.2.output ∈ shellTexts := by
  have hv : (kernel.run (boot sampleBoot) typesLs).bind (fun s =>
      ((shellBeside 2).run (Session.start s (.banner fun _ => 0)) shellMoves).map fun y =>
        y.log.length) = some 5 := by decide +kernel
  obtain ⟨s, hs, hv⟩ := Option.bind_eq_some_iff.mp hv
  obtain ⟨y, hy, -⟩ := Option.map_eq_some_iff.mp hv
  exact ⟨s, y, hs, hy, (shell_never_reports hs hy).1⟩

end Runs

end Mp3
