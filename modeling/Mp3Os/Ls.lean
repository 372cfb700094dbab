import Mp3Os.DirCursor
import Mp3Os.Status
import Mp3Os.Support
import Mp3Os.UserFiles

/-!
# `ls` (`ece391ls.c`)

The program as a client of the kernel, and what it prints beside other processes that leave the
directory alone: the names from the cursor on, up to the last but one, each on a line (`ls_prints`).
So no `ls` prints the last entry, and the first one after boot does not print entry 0 either; it
leaves the cursor at 0 for the next.
-/

namespace Mp3

/-- Where `main` is, with its `fd`, `buf` and `cnt`. -/
inductive Ls where
  | opens (buf : Nat → UInt8)
  | reads (fd : Int) (buf : Nat → UInt8)
  | writes (fd : Int) (buf : Nat → UInt8) (cnt : Int)
  | message (text : List UInt8) (status : Int)
  | exits (status : Int)

def lsOpenFailed : List UInt8 :=
  lit ['d', 'i', 'r', 'e', 'c', 't', 'o', 'r', 'y', ' ', 'o', 'p', 'e', 'n', ' ', 'f', 'a', 'i', 'l',
    'e', 'd', '\n']

def lsReadFailed : List UInt8 :=
  lit ['d', 'i', 'r', 'e', 'c', 't', 'o', 'r', 'y', ' ', 'e', 'n', 't', 'r', 'y', ' ', 'r', 'e', 'a',
    'd', ' ', 'f', 'a', 'i', 'l', 'e', 'd', '\n']

namespace Ls

/-- The call that `main` makes next. -/
def call : Ls → Option UserCall
  | opens _ => some (.openFd dotName)
  | reads fd buf => some (.read fd buf 32)
  | writes _ buf cnt => some (.write 1 buf (cnt + 1))
  | message text _ => some (fdputs text)
  | exits _ => none

/-- Where `main` goes on with a result. -/
def resume : Ls → UserResult → Ls
  | opens buf, r => if r.ret = -1 then message lsOpenFailed 2 else reads r.ret buf
  | reads fd _, r =>
    if r.ret = 0 then exits 0
    else if r.ret = -1 then message lsReadFailed 3
    else writes fd (Function.update r.mem r.ret.toNat (ch '\n')) r.ret
  | writes fd buf _, r => if r.ret = -1 then exits 3 else reads fd buf
  | message _ status, _ => exits status
  | exits status, _ => exits status

/-- `main` has returned. -/
def Ended : Ls → Prop
  | exits _ => True
  | _ => False

/-- The program has opened the directory and has not returned. -/
def holdsFile : Ls → Bool
  | opens _ | exits _ => false
  | _ => true

end Ls

/-- The program. -/
def lsProgram : Client UserCall UserResult := ⟨Ls, Ls.call, Ls.resume⟩

/-- `ls` as process `p`, beside the others. -/
def lsBeside (p : Int) : Lts (Session Kernel UserCall Ls) (Move UserIn Event) :=
  lsProgram.beside (processService p) kernel (Kernel.NotBy p)

/-- Nobody else reads the directory, and from the open on nobody else opens or closes a file. -/
def LsUndisturbed (x : Session Kernel UserCall Ls) : Move UserIn Event → Prop
  | .own _ => True
  | .other e => x.sys.readsDir e = false ∧ (x.prog.holdsFile = true → e.LeavesFiles)

instance (x : Session Kernel UserCall Ls) : (m : Move UserIn Event) → Decidable (LsUndisturbed x m)
  | .own _ => isTrue trivial
  | .other _ => inferInstanceAs (Decidable (_ ∧ (_ → _)))

/-- `ls` starts as process `p`, without open files, on a directory whose names are not empty. -/
structure LsStarts (s : Kernel) (p : Int) : Prop where
  dot : (readDentryByName s.fs dotName).map Dentry.fileType = some 1
  small : s.fs.numdentries ≤ 64
  cursor : s.fs.curfile < s.fs.numdentries
  named : ∀ i < s.fs.numdentries, s.fs.entryName i ≠ []
  clean : s.files.CleanAt p

instance (s : Kernel) (p : Int) : Decidable (LsStarts s p) :=
  decidable_of_iff ((readDentryByName s.fs dotName).map Dentry.fileType = some 1 ∧
    s.fs.numdentries ≤ 64 ∧ s.fs.curfile < s.fs.numdentries ∧
    (∀ i < s.fs.numdentries, s.fs.entryName i ≠ []) ∧ s.files.CleanAt p)
    ⟨fun h => ⟨h.1, h.2.1, h.2.2.1, h.2.2.2.1, h.2.2.2.2⟩, fun h => ⟨h.1, h.2, h.3, h.4, h.5⟩⟩

/-- Some names from entry `c` on, a line each. -/
def FileSys.lines (fs : FileSys) (c n : Nat) : List UInt8 :=
  (List.range' c n).flatMap fun i => fs.entryName i ++ [ch '\n']

/-- Process `p` has the directory open as `fd`, and the globals name this descriptor. -/
structure Kernel.ReadsDirectory (s : Kernel) (p fd : Int) : Prop where
  present : (s.fdEntry p fd).present = 0
  ops : (s.fdEntry p fd).jumpStartIdx = some .dir
  pid : s.currPid = p
  fd : s.currFD = fd

/-! ## The calls -/

section Calls

variable {s s' : Kernel} {p fd : Int} {e : Event}

theorem Kernel.ReadsDirectory.other (h : s.ReadsDirectory p fd) (hn : s.NotBy p e)
    (hl : e.LeavesFiles) (hs : s.step e = some s') : s'.ReadsDirectory p fd := by
  obtain ⟨hpid, hfd⟩ := leavesFiles_globals hl hs
  have ht := notBy_table hn hs fd
  exact ⟨ht ▸ h.present, ht ▸ h.ops, hpid.trans h.pid, hfd.trans h.fd⟩

theorem readTarget_readsDirectory (h : s.ReadsDirectory p fd) (h2 : 2 ≤ fd) (h6 : fd < 6) {buf : Nat}
    (hb : buf ≠ 0) : s.readTarget fd buf = .call (some .dir) := by
  have hp : s.globalEntry.present = 0 := by rw [Kernel.globalEntry, h.pid, h.fd, h.present]
  have ho : s.globalEntry.jumpStartIdx = some .dir := by rw [Kernel.globalEntry, h.pid, h.fd, h.ops]
  have hfd := h.fd
  unfold Kernel.readTarget
  rw [if_neg (by omega), if_neg hb, if_neg (by omega), if_neg (by omega), ho]

/-- `sys_open` of the directory by a process without open files. -/
theorem readsDirectory_openFd (hd : (readDentryByName s.fs dotName).map Dentry.fileType = some 1)
    (hp : s.curr = p) (hc : s.files.CleanAt p) :
    (s.sysOpen dotName).1 = 2 ∧ (s.sysOpen dotName).2.ReadsDirectory p 2 := by
  subst hp
  obtain ⟨d, hd, ht⟩ := Option.map_eq_some_iff.mp hd
  rw [sysOpen_eq, if_neg (by decide), hd, freeFd_of_lowest hc.lowest]
  have he : (s.openedAs dotName d 2).fdEntry s.curr 2 = (s.fdEntry s.curr 2).opened d := by
    rw [fdEntry_openedAs, if_pos ⟨rfl, rfl⟩]
  refine ⟨rfl, ?_, ?_, rfl, rfl⟩
  · rw [he]
    rfl
  · rw [he, FdEntry.opened, ht]
    rfl

/-- `sys_read` of the directory. -/
theorem sysRead_readsDirectory (h : s.ReadsDirectory p fd) (h2 : 2 ≤ fd) (h6 : fd < 6) {buf : Nat}
    (hb : buf ≠ 0) (stack mem : Nat → UInt8) (n : Int) :
    s.sysRead fd buf stack mem n = some ⟨(dirRead s.fs stack mem n).1, (dirRead s.fs stack mem n).2.1,
      { s with fs := (dirRead s.fs stack mem n).2.2 }⟩ := by
  rw [Kernel.sysRead, readTarget_readsDirectory h h2 h6 hb]
  rfl

end Calls

/-! ## The invariant -/

section Invariant

variable (s₀ : Kernel) (p : Int)

/-- The number of names that are printed. -/
def lsCount : Nat := s₀.fs.numdentries - 1 - s₀.fs.curfile

/-- What holds at each call, of the kernel and of what was written with how many calls. -/
def LsHolds (s : Kernel) (out : List UInt8) (calls : Nat) : Ls → Prop
  | .opens _ => s.fdEntry p = s₀.fdEntry p ∧ s.fs.curfile = s₀.fs.curfile ∧ out = [] ∧ calls = 0
  | .reads fd _ => ∃ k ≤ lsCount s₀, fd = 2 ∧ s.ReadsDirectory p 2 ∧
      s.fs.curfile = s₀.fs.curfile + k ∧ out = s₀.fs.lines s₀.fs.curfile k ∧ calls = 1 + 2 * k
  | .writes fd buf cnt => ∃ k < lsCount s₀, fd = 2 ∧ s.ReadsDirectory p 2 ∧
      s.fs.curfile = s₀.fs.curfile + k + 1 ∧ 0 ≤ cnt ∧
      (List.range (cnt + 1).toNat).map buf = s₀.fs.entryName (s₀.fs.curfile + k) ++ [ch '\n'] ∧
      out = s₀.fs.lines s₀.fs.curfile k ∧ calls = 2 + 2 * k
  | .message .. => False
  | .exits status => status = 0 ∧ s.fs.curfile = 0 ∧
      out = s₀.fs.lines s₀.fs.curfile (lsCount s₀) ∧ calls = 2 + 2 * lsCount s₀

/-- The invariant of `ls`. -/
structure LsInv (x : Session Kernel UserCall Ls) : Prop where
  running : x.waiting = false
  disk : x.sys.fs.disk = s₀.fs.disk
  holds : LsHolds s₀ p x.sys (written x.log) x.log.length x.prog

end Invariant

section Keeps

variable {s₀ s s' : Kernel} {p : Int} {out : List UInt8} {calls : Nat} {a : Ls} {q : UserCall}
  {e : Event}

/-- The others keep what `ls` relies on. -/
theorem lsHolds_other {y : Session Kernel UserCall Ls} (h : LsHolds s₀ p y.sys out calls y.prog)
    (hg : LsUndisturbed y (.other e)) (hn : y.sys.NotBy p e) (hs : y.sys.step e = some s') :
    LsHolds s₀ p s' out calls y.prog := by
  obtain ⟨s, a, w, log⟩ := y
  obtain ⟨hdir, hfiles⟩ := hg
  have ht : s'.fdEntry p = s.fdEntry p := funext (notBy_table hn hs)
  have hcur : s'.fs.curfile = s.fs.curfile := by
    rw [curfile_step hs]
    exact if_neg (hdir ▸ Bool.false_ne_true)
  cases a with
  | opens buf =>
    obtain ⟨htab, hc, hrest⟩ := h
    exact ⟨ht.trans htab, hcur.trans hc, hrest⟩
  | reads fd buf =>
    obtain ⟨k, hk, hfd, hopen, hc, hrest⟩ := h
    exact ⟨k, hk, hfd, hopen.other hn (hfiles rfl) hs, hcur.trans hc, hrest⟩
  | writes fd buf cnt =>
    obtain ⟨k, hk, hfd, hopen, hc, hrest⟩ := h
    exact ⟨k, hk, hfd, hopen.other hn (hfiles rfl) hs, hcur.trans hc, hrest⟩
  | message text status => exact h
  | exits status =>
    obtain ⟨hst, hc, hrest⟩ := h
    exact ⟨hst, hcur.trans hc, hrest⟩

theorem lines_succ (fs : FileSys) (c n : Nat) :
    fs.lines c (n + 1) = fs.lines c n ++ (fs.entryName (c + n) ++ [ch '\n']) := by
  simp [FileSys.lines, List.range'_concat]

/-- The line that `ls` makes of a name. -/
theorem line_update {buf : Nat → UInt8} {name : List UInt8} {n : Int} (hn : n = name.length)
    (h : delivered (n, buf) = name) :
    (List.range (n + 1).toNat).map (Function.update buf n.toNat (ch '\n')) = name ++ [ch '\n'] := by
  subst hn
  have hpre : (List.range name.length).map (Function.update buf name.length (ch '\n')) = name := by
    rw [← h]
    simp only [delivered, Int.toNat_natCast, List.length_map, List.length_range]
    refine List.map_congr_left fun i hi => ?_
    have hlt := List.mem_range.mp hi
    exact Function.update_of_ne (by omega) ..
  rw [show ((name.length : Int) + 1).toNat = name.length + 1 by omega, Int.toNat_natCast,
    List.range_succ, List.map_append, hpre, List.map_singleton, Function.update_self]

variable (h₀ : LsStarts s₀ p) (hd : s.fs.disk = s₀.fs.disk) (hp : s.RunsProcess p)

include h₀ hd hp

/-- **One call of `ls`** returns, and leads to the next. -/
theorem lsHolds_serve (h : LsHolds s₀ p s out calls a) (hq : a.call = some q) (x : UserIn) :
    ∃ r s', s.serve x q = some (some r, s') ∧ s'.fs.disk = s₀.fs.disk ∧
      LsHolds s₀ p s' (out ++ q.output) (calls + 1) (a.resume r) := by
  have hn : s.fs.numdentries = s₀.fs.numdentries := by
    have hn : s.fs.disk.numdentries = s₀.fs.disk.numdentries := by rw [hd]
    exact hn
  have hcount : lsCount s₀ = s₀.fs.numdentries - 1 - s₀.fs.curfile := rfl
  have hcur := h₀.cursor
  have hsmall := h₀.small
  cases a with
  | opens buf =>
    cases hq
    obtain ⟨htab, hc, rfl, rfl⟩ := h
    have hclean : s.files.CleanAt p := by
      intro i h2 h8
      show (s.fdEntry p i).present = -1
      rw [htab]
      exact h₀.clean i h2 h8
    obtain ⟨hret, hopen⟩ := readsDirectory_openFd (s := s)
      (by rw [readDentryByName_of_disk hd]; exact h₀.dot) hp.2 hclean
    refine ⟨_, _, rfl, ?_, ?_⟩
    · rw [← hd]
      exact disk_step (e := .openFd dotName) (if_pos hp.1)
    · simp only [Ls.resume, hret, show ¬ (2 : Int) = -1 by decide, ↓reduceIte]
      exact ⟨0, by omega, rfl, hopen, (curfile_sysOpen dotName).trans hc, rfl, rfl⟩
  | reads fd buf =>
    cases hq
    obtain ⟨k, hk, rfl, hopen, hc, rfl, rfl⟩ := h
    have hlt : s.fs.curfile < s.fs.numdentries := by omega
    have hread := sysRead_readsDirectory hopen (by decide) (by decide) x.addr_ne x.stack buf 32
    have hanswer := dirRead_answer x.stack buf (n := 32) (by decide) hlt (by omega)
    have hmove : (dirRead s.fs x.stack buf 32).2.2.curfile = s.fs.nextFile := curfile_dirRead ..
    rw [nextFile_eq (by omega) hlt] at hmove
    have hserve : s.serve x (.read 2 buf 32) = some (some ⟨_, _⟩, _) :=
      Option.map_eq_some_iff.mpr ⟨_, hread, rfl⟩
    refine ⟨_, _, hserve, (disk_step (serve_step hp hserve)).trans hd, ?_⟩
    rw [output_read, List.append_nil]
    by_cases hend : k = lsCount s₀
    · -- the last entry
      have h0 : (dirRead s.fs x.stack buf 32).1 = 0 := by
        have h := congrArg Prod.fst hanswer
        rwa [FileSys.dirAnswer, if_pos (by omega)] at h
      simp only [Ls.resume, h0, ↓reduceIte]
      refine ⟨rfl, ?_, by rw [hend], by omega⟩
      show (dirRead s.fs x.stack buf 32).2.2.curfile = 0
      rw [hmove, show s.fs.curfile + 1 = s.fs.numdentries by omega, Nat.mod_self]
    · have hname : s.fs.entryName = s₀.fs.entryName := entryName_of_disk hd
      rw [FileSys.dirAnswer, if_neg (by omega), hname, hc] at hanswer
      obtain ⟨hret, hline⟩ := Prod.mk.inj hanswer
      have hne := List.length_pos_iff.mpr (h₀.named (s₀.fs.curfile + k) (by omega))
      simp only [Ls.resume, show ¬ (dirRead s.fs x.stack buf 32).1 = 0 by omega,
        show ¬ (dirRead s.fs x.stack buf 32).1 = -1 by omega, ↓reduceIte]
      refine ⟨k, by omega, rfl, ⟨hopen.present, hopen.ops, hopen.pid, hopen.fd⟩, ?_, by omega,
        line_update hret hline, rfl, by omega⟩
      show (dirRead s.fs x.stack buf 32).2.2.curfile = s₀.fs.curfile + k + 1
      rw [hmove, Nat.mod_eq_of_lt (by omega), hc]
  | writes fd buf cnt =>
    cases hq
    obtain ⟨k, hk, rfl, hopen, hc, h0, hline, rfl, rfl⟩ := h
    have hret := terminalWriteFrom_ret (s := s) buf (cnt + 1)
    have hserve : s.serve x (.write 1 buf (cnt + 1)) =
        some (some ⟨(s.terminalWriteFrom buf (cnt + 1)).ret, _⟩, _) :=
      Option.map_eq_some_iff.mpr ⟨_, sysWrite_terminal x.addr_ne buf (cnt + 1), rfl⟩
    refine ⟨_, _, hserve, hd, ?_⟩
    simp only [Ls.resume, hret, show ¬ ((cnt + 1).toNat : Int) = -1 by omega, ↓reduceIte]
    refine ⟨k + 1, hk, rfl, ⟨hopen.present, hopen.ops, hopen.pid, hopen.fd⟩, hc, ?_, by omega⟩
    rw [UserCall.output, if_pos rfl, hline, lines_succ]
  | message text status => exact h.elim
  | exits status => cases hq

end Keeps

section Runs

variable {s₀ : Kernel} {p : Int} {y : Session Kernel UserCall Ls} {ms : List (Move UserIn Event)}
  {buf : Nat → UInt8}

/-- A call keeps the invariant. -/
theorem lsInv_serve {s : Kernel} {a : Ls} {log : List (Kernel × UserCall)} {q : UserCall}
    (h₀ : LsStarts s₀ p) (hi : LsInv s₀ p ⟨s, a, false, log⟩) (hq : a.call = some q)
    (hp : s.RunsProcess p) (x : UserIn) : ∃ r s', (processService p).serve s x q = some (some r, s') ∧
      LsInv s₀ p ⟨s', a.resume r, false, log ++ [(s, q)]⟩ := by
  obtain ⟨r, s', hs, hd, hh⟩ := lsHolds_serve h₀ hi.disk hp hi.holds hq x
  refine ⟨r, s', processService_serve.mpr ⟨hp, hs⟩, rfl, hd, ?_⟩
  rw [written_append, List.length_append]
  exact hh

/-- **The invariant holds along every undisturbed run.** -/
theorem lsInv_run (h₀ : LsStarts s₀ p)
    (hg : (lsBeside p).Along LsUndisturbed (Session.start s₀ (.opens buf)) ms)
    (hr : (lsBeside p).run (Session.start s₀ (.opens buf)) ms = some y) : LsInv s₀ p y := by
  have hstart : LsInv s₀ p (Session.start s₀ (.opens buf)) := ⟨rfl, rfl, rfl, rfl, rfl, rfl⟩
  refine Client.beside_returns (C := lsProgram) runsProcess_of_serve LsInv.running ?_ ?_ hstart hg hr
  · intro s a log x q hi hq hp
    exact lsInv_serve h₀ hi hq hp x
  · intro x e s' hi hg hn hs
    exact ⟨hi.running, (disk_step hs).trans hi.disk, lsHolds_other (y := x) hi.holds hg hn hs⟩

/-- The first names are the beginning of more. -/
theorem lines_initial (fs : FileSys) (c : Nat) {k n : Nat} (h : k ≤ n) :
    fs.lines c k <+: fs.lines c n := by
  induction n, h using Nat.le_induction with
  | base => exact List.prefix_rfl
  | succ n _ ih =>
    rw [lines_succ]
    exact ih.trans (List.prefix_append ..)

/-- **`ls` prints the names from the cursor on, without the last.** In every undisturbed run it has
always printed a beginning of them, a line each, and no call of it has failed; it ends, with status
0, exactly with call `2 + 2 * n` for `n` names, having printed them and set the cursor back to 0.
Until then its next call returns whenever it is its turn. -/
theorem ls_prints (h₀ : LsStarts s₀ p)
    (hg : (lsBeside p).Along LsUndisturbed (Session.start s₀ (.opens buf)) ms)
    (hr : (lsBeside p).run (Session.start s₀ (.opens buf)) ms = some y) :
    let n := s₀.fs.numdentries - 1 - s₀.fs.curfile
    written y.log <+: s₀.fs.lines s₀.fs.curfile n ∧
      (∀ text status, y.prog ≠ .message text status) ∧
      (y.prog.Ended ↔ y.log.length = 2 + 2 * n) ∧
      (y.prog.Ended → y.prog = .exits 0 ∧ written y.log = s₀.fs.lines s₀.fs.curfile n ∧
        y.sys.fs.curfile = 0) ∧
      (¬ y.prog.Ended → y.sys.RunsProcess p → ∀ x, ∃ z, (lsBeside p).step y (.own x) = some z ∧
        z.log.length = y.log.length + 1) := by
  intro n
  obtain ⟨s, a, w, log⟩ := y
  obtain ⟨rfl, hd, hh⟩ := lsInv_run h₀ hg hr
  have hn : n = lsCount s₀ := rfl
  have hturn : ∀ q, a.call = some q → s.RunsProcess p → ∀ x, ∃ z,
      (lsBeside p).step ⟨s, a, false, log⟩ (.own x) = some z ∧ z.log.length = log.length + 1 := by
    intro q hq hp x
    obtain ⟨r, s', hs, -⟩ := lsInv_serve h₀ ⟨rfl, hd, hh⟩ hq hp x
    exact Client.beside_turn (C := lsProgram) hq hs
  dsimp only at hh ⊢
  cases a with
  | opens buf =>
    obtain ⟨-, -, hout, hcalls⟩ := hh
    rw [hout]
    exact ⟨List.nil_prefix, nofun, iff_of_false id (by omega), False.elim, fun _ => hturn _ rfl⟩
  | reads fd buf =>
    obtain ⟨k, hk, -, -, -, hout, hcalls⟩ := hh
    rw [hout]
    exact ⟨lines_initial _ _ hk, nofun, iff_of_false id (by omega), False.elim, fun _ => hturn _ rfl⟩
  | writes fd buf cnt =>
    obtain ⟨k, hk, -, -, -, -, -, hout, hcalls⟩ := hh
    rw [hout]
    exact ⟨lines_initial _ _ hk.le, nofun, iff_of_false id (by omega), False.elim,
      fun _ => hturn _ rfl⟩
  | message text status => exact hh.elim
  | exits status =>
    obtain ⟨rfl, hcur, hout, hcalls⟩ := hh
    rw [hout]
    exact ⟨List.prefix_rfl, nofun, iff_of_true trivial hcalls, fun _ => ⟨rfl, rfl, hcur⟩,
      fun h => absurd trivial h⟩

/-- `ls` on terminal 2 of the small machine, with a key and a tick between its calls. -/
def lsMoves : List (Move UserIn Event) :=
  let own : Move UserIn Event := .own sampleIn
  [own, own] ++ (sampleKeys [0x30]).map .other ++ [own, own, own, own, own, own]

/-- After boot it prints the entries 1 to 3 of the five. -/
theorem ls_prints_sample : ∃ s y, kernel.run (boot sampleBoot) lsRuns = some s ∧
    (lsBeside 3).run (Session.start s (.opens fun _ => 0)) lsMoves = some y ∧
    y.prog = .exits 0 ∧ written y.log = lit ['s', 'h', 'e', 'l', 'l', '\n', 'l', 's', '\n', 'r', 't',
      'c', '\n'] := by
  have hv : (kernel.run (boot sampleBoot) lsRuns).bind (fun s =>
      ((lsBeside 3).run (Session.start s (.opens fun _ => 0)) lsMoves).map fun y =>
        (decide (LsStarts s 3 ∧ s.fs.curfile = 1 ∧ s.fs.numdentries = 5 ∧ s.fs.lines 1 3 =
            lit ['s', 'h', 'e', 'l', 'l', '\n', 'l', 's', '\n', 'r', 't', 'c', '\n']),
          decide ((lsBeside 3).Along LsUndisturbed (Session.start s (.opens fun _ => 0)) lsMoves),
          y.log.length)) = some (true, true, 8) := by decide +kernel
  obtain ⟨s, hs, hv⟩ := Option.bind_eq_some_iff.mp hv
  obtain ⟨y, hy, hv⟩ := Option.map_eq_some_iff.mp hv
  simp only [Prod.mk.injEq, decide_eq_true_eq] at hv
  obtain ⟨⟨h₀, hcur, hnum, hlines⟩, hg, hcalls⟩ := hv
  obtain ⟨-, -, hend, hdone, -⟩ := ls_prints h₀ hg hy
  rw [hcur, hnum] at hend hdone
  obtain ⟨hprog, hout, -⟩ := hdone (hend.mpr hcalls)
  exact ⟨s, y, hs, hy, hprog, hout.trans hlines⟩

end Runs

end Mp3
