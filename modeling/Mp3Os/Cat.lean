import Mp3Os.Support
import Mp3Os.UserFiles

/-!
# `cat` (`ece391cat.c`)

The program as a client of the kernel, and what it does beside other processes: it writes the file
that its argument names, chunk by chunk, and returns 0 after one call for the arguments, one to open
the file, a read and a write for each chunk, and a read at the end (`cat_copies`).

This needs what the kernel does not give by itself: that no line is read before `cat` has its
arguments, and that no other process opens or closes a file while `cat` reads (`CatUndisturbed`).
-/

namespace Mp3

/-- Where `main` is: at a call, with what it has in `fd`, `buf` and `cnt`; at the `ece391_fdputs`
of a message, after which it returns `status`; or at its end. -/
inductive Cat where
  | args (buf : Nat → UInt8)
  | opens (buf : Nat → UInt8)
  | reads (fd : Int) (buf : Nat → UInt8)
  | writes (fd : Int) (buf : Nat → UInt8) (cnt : Int)
  | message (text : List UInt8) (status : Int)
  | exits (status : Int)

def catNoArguments : List UInt8 :=
  lit ['c', 'o', 'u', 'l', 'd', ' ', 'n', 'o', 't', ' ', 'r', 'e', 'a', 'd', ' ', 'a', 'r', 'g', 'u',
    'm', 'e', 'n', 't', 's', '\n']

def catNotFound : List UInt8 :=
  lit ['f', 'i', 'l', 'e', ' ', 'n', 'o', 't', ' ', 'f', 'o', 'u', 'n', 'd', '\n']

def catReadFailed : List UInt8 :=
  lit ['f', 'i', 'l', 'e', ' ', 'r', 'e', 'a', 'd', ' ', 'f', 'a', 'i', 'l', 'e', 'd', '\n']

namespace Cat

/-- The call that `main` makes next. -/
def call : Cat → Option UserCall
  | args buf => some (.getargs buf 1024)
  | opens buf => some (.openFd buf)
  | reads fd buf => some (.read fd buf 1024)
  | writes _ buf cnt => some (.write 1 buf cnt)
  | message text _ => some (fdputs text)
  | exits _ => none

/-- Where `main` goes on with a result. -/
def resume : Cat → UserResult → Cat
  | args _, r => if r.ret ≠ 0 then message catNoArguments 3 else opens r.mem
  | opens _, r => if r.ret = -1 then message catNotFound 2 else reads r.ret r.mem
  | reads fd _, r =>
    if r.ret = 0 then exits 0
    else if r.ret = -1 then message catReadFailed 3
    else writes fd r.mem r.ret
  | writes fd buf _, r => if r.ret = -1 then exits 3 else reads fd buf
  | message _ status, _ => exits status
  | exits status, _ => exits status

/-- `main` has returned. -/
def Ended : Cat → Prop
  | exits _ => True
  | _ => False

/-- The program has opened its file and has not returned. -/
def holdsFile : Cat → Bool
  | args _ | opens _ | exits _ => false
  | _ => true

/-- The program has no arguments yet. -/
def needsArgs : Cat → Bool
  | args _ => true
  | _ => false

end Cat

/-- The program. -/
def catProgram : Client UserCall UserResult := ⟨Cat, Cat.call, Cat.resume⟩

/-- `cat` as process `p`, beside the others. -/
def catBeside (p : Int) : Lts (Session Kernel UserCall Cat) (Move UserIn Event) :=
  catProgram.beside (processService p) kernel (Kernel.NotBy p)

/-- Nobody reads a line before `cat` has its arguments, and from its open on nobody else opens or
closes a file. -/
def CatUndisturbed (x : Session Kernel UserCall Cat) : Move UserIn Event → Prop
  | .own _ => True
  | .other e =>
    (x.prog.needsArgs = true → x.sys.readsLine e = false) ∧ (x.prog.holdsFile = true → e.LeavesFiles)

instance (x : Session Kernel UserCall Cat) : (m : Move UserIn Event) → Decidable (CatUndisturbed x m)
  | .own _ => isTrue trivial
  | .other _ => inferInstanceAs (Decidable ((_ → _) ∧ (_ → _)))

/-- `cat` starts as process `p`, without open files, and its argument is the name of a file. -/
structure CatStarts (s : Kernel) (p : Int) (name : List UInt8) (inode : Nat) : Prop where
  args : s.storeargs = Buf.ofList name
  nonempty : name ≠ []
  length : name.length < 1023
  file : s.fs.HasFile name inode
  clean : s.files.CleanAt p
  rewound : (s.fdEntry p 2).filePos = 0

/-! ## The invariant -/

section Invariant

variable (s₀ : Kernel) (p : Int) (name : List UInt8) (inode : Nat)

/-- What holds at each call, of the kernel and of what was written with how many calls. -/
def CatHolds (s : Kernel) (out : List UInt8) (calls : Nat) : Cat → Prop
  | .args _ => s.storeargs = Buf.ofList name ∧ s.fdEntry p = s₀.fdEntry p ∧ out = [] ∧ calls = 0
  | .opens buf => IsName buf name ∧ s.fdEntry p = s₀.fdEntry p ∧ out = [] ∧ calls = 1
  | .reads fd _ => ∃ k, 1024 * k < s₀.fs.fileLength inode + 1024 ∧ fd = 2 ∧
      s.OpenAt p 2 inode (min (1024 * k) (s₀.fs.fileLength inode)) ∧
      out = (s₀.fs.contents inode).take (1024 * k) ∧ calls = 2 + 2 * k
  | .writes fd buf cnt => ∃ k, 1024 * k < s₀.fs.fileLength inode ∧ fd = 2 ∧
      s.OpenAt p 2 inode (min (1024 * (k + 1)) (s₀.fs.fileLength inode)) ∧
      0 ≤ cnt ∧ (List.range cnt.toNat).map buf = Cursor.piece (s₀.fs.contents inode) 1024 (1024 * k) ∧
      out = (s₀.fs.contents inode).take (1024 * k) ∧ calls = 3 + 2 * k
  | .message .. => False
  | .exits status => status = 0 ∧ out = s₀.fs.contents inode ∧
      calls = 3 + 2 * ((s₀.fs.fileLength inode + 1023) / 1024)

/-- The invariant of `cat`. -/
structure CatInv (x : Session Kernel UserCall Cat) : Prop where
  running : x.waiting = false
  disk : x.sys.fs.disk = s₀.fs.disk
  holds : CatHolds s₀ p name inode x.sys (written x.log) x.log.length x.prog

end Invariant

section Keeps

variable {s₀ s s' : Kernel} {p : Int} {name : List UInt8} {inode calls : Nat} {out : List UInt8}
  {x : UserIn} {r : Option UserResult} {a : Cat} {q : UserCall} {e : Event}

/-- The others keep what `cat` relies on. -/
theorem catHolds_other {y : Session Kernel UserCall Cat}
    (h : CatHolds s₀ p name inode y.sys out calls y.prog) (hg : CatUndisturbed y (.other e))
    (hn : y.sys.NotBy p e) (hs : y.sys.step e = some s') :
    CatHolds s₀ p name inode s' out calls y.prog := by
  obtain ⟨s, a, w, log⟩ := y
  obtain ⟨hline, hfiles⟩ := hg
  have ht : s'.fdEntry p = s.fdEntry p := funext (notBy_table hn hs)
  cases a with
  | args buf =>
    obtain ⟨hargs, htab, hrest⟩ := h
    refine ⟨?_, ht.trans htab, hrest⟩
    rw [storeargs_step hs, if_neg (ne_true_of_eq_false (hline rfl))]
    exact hargs
  | opens buf =>
    obtain ⟨hname, htab, hrest⟩ := h
    exact ⟨hname, ht.trans htab, hrest⟩
  | reads fd buf =>
    obtain ⟨k, hk, hfd, hopen, hrest⟩ := h
    exact ⟨k, hk, hfd, hopen.other hn (hfiles rfl) hs, hrest⟩
  | writes fd buf cnt =>
    obtain ⟨k, hk, hfd, hopen, hrest⟩ := h
    exact ⟨k, hk, hfd, hopen.other hn (hfiles rfl) hs, hrest⟩
  | message text status => exact h
  | exits status => exact h

variable (h₀ : CatStarts s₀ p name inode) (hd : s.fs.disk = s₀.fs.disk) (hp : s.RunsProcess p)

/-- A string that `sys_getargs` delivers. -/
theorem isName_getargs (hargs : s.storeargs = Buf.ofList name) (hne : name ≠ []) (h0 : 0 ∉ name)
    (hlen : name.length < 1023) (after mem : Nat → UInt8) :
    (s.sysGetargs after mem 1024).ret = 0 ∧ IsName (s.sysGetargs after mem 1024).buf name := by
  have hfirst : name.getD 0 0 ≠ 0 := by
    cases name with
    | nil => exact absurd rfl hne
    | cons b name => exact fun hb => h0 (List.mem_cons.mpr (.inl hb.symm))
  obtain ⟨hret, hbuf⟩ := sysGetargs_some after mem 1024 hargs hfirst
  have hu : u32 1024 = 1024 := rfl
  exact ⟨hret, h0, fun i hi => hbuf i (by omega) (by omega)⟩

include h₀ hd hp

/-- **One call of `cat`** returns, and leads to the next. -/
theorem catHolds_serve (h : CatHolds s₀ p name inode s out calls a) (hq : a.call = some q)
    (x : UserIn) : ∃ r s', s.serve x q = some (some r, s') ∧ s'.fs.disk = s₀.fs.disk ∧
      CatHolds s₀ p name inode s' (out ++ q.output) (calls + 1) (a.resume r) := by
  have hcont : s.fs.contents = s₀.fs.contents := contents_of_disk hd
  have hlen : s.fs.fileLength = s₀.fs.fileLength := fileLength_of_disk hd
  have hfile := h₀.file.of_disk hd
  cases a with
  | args buf =>
    cases hq
    obtain ⟨hargs, htab, rfl, rfl⟩ := h
    obtain ⟨hret, hname⟩ := isName_getargs hargs h₀.nonempty h₀.file.noNul h₀.length x.after buf
    refine ⟨_, _, rfl, ?_, ?_⟩
    · rw [← hd]
      exact congrArg Files.disk (files_sysGetargs x.after buf 1024)
    · simp only [Cat.resume, hret, ne_eq, not_true_eq_false, ↓reduceIte]
      refine ⟨hname, ?_, rfl, rfl⟩
      rw [← htab]
      exact congrFun (congrArg Files.table (files_sysGetargs x.after buf 1024)) p
  | opens buf =>
    cases hq
    obtain ⟨hname, htab, rfl, rfl⟩ := h
    have hclean : s.files.CleanAt p := by
      intro i h2 h8
      show (s.fdEntry p i).present = -1
      rw [htab]
      exact h₀.clean i h2 h8
    have hpos : (s.fdEntry p 2).filePos = (0 : Nat) := by
      rw [htab]
      exact h₀.rewound
    obtain ⟨hret, hopen⟩ := openAt_openFd hfile hname h₀.nonempty hp.2 hclean.lowest hpos
    refine ⟨_, _, rfl, ?_, ?_⟩
    · rw [← hd]
      exact disk_step (e := .openFd buf) (if_pos hp.1)
    · simp only [Cat.resume, hret, show ¬ (2 : Int) = -1 by decide, ↓reduceIte]
      exact ⟨0, by omega, rfl, by simpa using hopen, by simp [UserCall.output], rfl⟩
  | reads fd buf =>
    cases hq
    obtain ⟨k, hk, rfl, hopen, rfl, rfl⟩ := h
    have hL := length_contents s₀.fs inode
    have hle : min (1024 * k) (s₀.fs.fileLength inode) ≤ s.fs.fileLength inode := by
      rw [hlen]
      exact Nat.min_le_right ..
    have hpc : min (1024 * k) (s₀.fs.fileLength inode) % 1024 = 0 ∨
        min (1024 * k) (s₀.fs.fileLength inode) = s.fs.fileLength inode := by
      rw [hlen]
      omega
    have hchunk := readData_chunk hfile.wellFormed hfile.inode_lt (by decide) (by decide) hle hpc buf
    obtain ⟨s', hread, hnext⟩ := sysRead_cursor hopen hfile (by decide) (by decide) hp.2
      (by decide) hle x.addr_ne x.stack hchunk
    have hserve : s.serve x (.read 2 buf 1024) = some (some ⟨_, _⟩, s') :=
      Option.map_eq_some_iff.mpr ⟨_, hread, rfl⟩
    have hdisk : s'.fs.disk = s₀.fs.disk := (disk_step (serve_step hp hserve)).trans hd
    rw [hcont] at hserve hnext
    refine ⟨_, s', hserve, hdisk, ?_⟩
    by_cases hend : s₀.fs.fileLength inode ≤ 1024 * k
    · -- the file is at its end
      have hpiece : Cursor.piece (s₀.fs.contents inode) 1024
          (min (1024 * k) (s₀.fs.fileLength inode)) = [] :=
        (Cursor.piece_eq_nil_iff (by decide)).mpr (by omega)
      simp only [Cat.resume, hpiece, List.length_nil, Int.natCast_zero, ↓reduceIte]
      refine ⟨rfl, ?_, by omega⟩
      rw [output_read, List.append_nil, List.take_of_length_le (by omega)]
    · have hmin : min (1024 * k) (s₀.fs.fileLength inode) = 1024 * k := by omega
      have hlen' : (Cursor.piece (s₀.fs.contents inode) 1024 (1024 * k)).length =
          min 1024 ((s₀.fs.contents inode).length - 1024 * k) := Cursor.length_piece
      rw [hmin] at hnext
      rw [Cursor.next_of_lt (by decide) (by omega), hL] at hnext
      simp only [hmin, Cat.resume, show ¬ ((Cursor.piece (s₀.fs.contents inode) 1024
        (1024 * k)).length : Int) = 0 by omega, show ¬ ((Cursor.piece (s₀.fs.contents inode) 1024
        (1024 * k)).length : Int) = -1 by omega, ↓reduceIte]
      refine ⟨k, by omega, rfl, hnext, by omega, ?_, ?_, by omega⟩
      · exact delivered_overwrite _ _
      · rw [output_read, List.append_nil]
  | writes fd buf cnt =>
    cases hq
    obtain ⟨k, hk, rfl, hopen, h0, hpiece, rfl, rfl⟩ := h
    have hret := terminalWriteFrom_ret (s := s) buf cnt
    have hserve : s.serve x (.write 1 buf cnt) = some (some ⟨(s.terminalWriteFrom buf cnt).ret, _⟩, _) :=
      Option.map_eq_some_iff.mpr ⟨_, sysWrite_terminal x.addr_ne buf cnt, rfl⟩
    refine ⟨_, _, hserve, hd, ?_⟩
    simp only [Cat.resume, hret, show ¬ (cnt.toNat : Int) = -1 by omega, ↓reduceIte]
    refine ⟨k + 1, by omega, rfl, ⟨hopen.entry, hopen.pid, hopen.fd⟩, ?_, by omega⟩
    rw [UserCall.output, if_pos rfl, hpiece, Cursor.piece, ← List.take_add]
    rfl
  | message text status => exact h.elim
  | exits status => cases hq

end Keeps

section Runs

variable {s₀ : Kernel} {p : Int} {name : List UInt8} {inode : Nat}
  {y z : Session Kernel UserCall Cat} {ms : List (Move UserIn Event)} {buf : Nat → UInt8}

/-- A call keeps the invariant. -/
theorem catInv_serve {s : Kernel} {a : Cat} {log : List (Kernel × UserCall)} {q : UserCall}
    (h₀ : CatStarts s₀ p name inode) (hi : CatInv s₀ p name inode ⟨s, a, false, log⟩) (hq : a.call = some q)
    (hp : s.RunsProcess p) (x : UserIn) : ∃ r s', (processService p).serve s x q = some (some r, s') ∧
      CatInv s₀ p name inode ⟨s', a.resume r, false, log ++ [(s, q)]⟩ := by
  obtain ⟨r, s', hs, hd, hh⟩ := catHolds_serve h₀ hi.disk hp hi.holds hq x
  refine ⟨r, s', processService_serve.mpr ⟨hp, hs⟩, rfl, hd, ?_⟩
  rw [written_append, List.length_append]
  exact hh

/-- **The invariant holds along every undisturbed run.** -/
theorem catInv_run (h₀ : CatStarts s₀ p name inode)
    (hg : (catBeside p).Along CatUndisturbed (Session.start s₀ (.args buf)) ms)
    (hr : (catBeside p).run (Session.start s₀ (.args buf)) ms = some y) :
    CatInv s₀ p name inode y := by
  have hstart : CatInv s₀ p name inode (Session.start s₀ (.args buf)) :=
    ⟨rfl, rfl, h₀.args, rfl, rfl, rfl⟩
  refine Client.beside_returns (C := catProgram) runsProcess_of_serve CatInv.running ?_ ?_ hstart hg hr
  · intro s a log x q hi hq hp
    exact catInv_serve h₀ hi hq hp x
  · intro x e s' hi hg hn hs
    exact ⟨hi.running, (disk_step hs).trans hi.disk, catHolds_other (y := x) hi.holds hg hn hs⟩

/-- **`cat` copies the file.** In every undisturbed run, what `cat` has written is always a
beginning of the file and no call of it has failed; it ends, with status 0, exactly with its call
number `3 + 2 * ⌈length / 1024⌉`, and then it has written the file. Until then its next call
returns whenever it is its turn. -/
theorem cat_copies (h₀ : CatStarts s₀ p name inode)
    (hg : (catBeside p).Along CatUndisturbed (Session.start s₀ (.args buf)) ms)
    (hr : (catBeside p).run (Session.start s₀ (.args buf)) ms = some y) :
    written y.log <+: s₀.fs.contents inode ∧
      (∀ text status, y.prog ≠ .message text status) ∧
      y.log.length ≤ 3 + 2 * ((s₀.fs.fileLength inode + 1023) / 1024) ∧
      (y.prog.Ended ↔ y.log.length = 3 + 2 * ((s₀.fs.fileLength inode + 1023) / 1024)) ∧
      (y.prog.Ended → y.prog = .exits 0 ∧ written y.log = s₀.fs.contents inode) ∧
      (¬ y.prog.Ended → y.sys.RunsProcess p → ∀ x, ∃ z, (catBeside p).step y (.own x) = some z ∧
        z.log.length = y.log.length + 1) := by
  obtain ⟨s, a, w, log⟩ := y
  obtain ⟨rfl, hd, hh⟩ := catInv_run h₀ hg hr
  have hturn : ∀ q, a.call = some q → s.RunsProcess p → ∀ x, ∃ z,
      (catBeside p).step ⟨s, a, false, log⟩ (.own x) = some z ∧ z.log.length = log.length + 1 := by
    intro q hq hp x
    obtain ⟨r, s', hs, -⟩ := catInv_serve h₀ ⟨rfl, hd, hh⟩ hq hp x
    exact Client.beside_turn (C := catProgram) hq hs
  dsimp only at hh ⊢
  cases a with
  | args buf =>
    obtain ⟨-, -, hout, hcalls⟩ := hh
    rw [hout]
    exact ⟨List.nil_prefix, nofun, by omega, iff_of_false id (by omega), False.elim,
      fun _ => hturn _ rfl⟩
  | opens buf =>
    obtain ⟨-, -, hout, hcalls⟩ := hh
    rw [hout]
    exact ⟨List.nil_prefix, nofun, by omega, iff_of_false id (by omega), False.elim,
      fun _ => hturn _ rfl⟩
  | reads fd buf =>
    obtain ⟨k, hk, -, -, hout, hcalls⟩ := hh
    rw [hout]
    exact ⟨List.take_prefix _ _, nofun, by omega, iff_of_false id (by omega), False.elim,
      fun _ => hturn _ rfl⟩
  | writes fd buf cnt =>
    obtain ⟨k, hk, -, -, -, -, hout, hcalls⟩ := hh
    rw [hout]
    exact ⟨List.take_prefix _ _, nofun, by omega, iff_of_false id (by omega), False.elim,
      fun _ => hturn _ rfl⟩
  | message text status => exact hh.elim
  | exits status =>
    obtain ⟨rfl, hout, hcalls⟩ := hh
    rw [hout]
    exact ⟨List.prefix_rfl, nofun, by omega, iff_of_true trivial hcalls, fun _ => ⟨rfl, rfl⟩,
      fun h => absurd trivial h⟩

/-- `cat frame0` on terminal 2 of the small machine, by the name of a program that it has. -/
def startsCat : List Event :=
  sampleLaunches ++ sampleKeys [0x26, 0x1F, 0x39, 0x21, 0x13, 0x1E, 0x32, 0x12, 0x0B, 0x1C] ++
    [sampleRead, .execUser (memory [(0, lit ['l', 's'])]) sampleExec]

/-- Its calls, with a key between them. -/
def catMoves : List (Move UserIn Event) :=
  let own : Move UserIn Event := .own sampleIn
  [own, own] ++ (sampleKeys [0x30]).map .other ++ [own, own, own]

theorem cat_copies_sample : ∃ s y, kernel.run (boot sampleBoot) startsCat = some s ∧
    (catBeside 3).run (Session.start s (.args fun _ => 0)) catMoves = some y ∧
    y.prog = .exits 0 ∧ written y.log = lit ['t', 'e', 'x', 't'] := by
  have hv : (kernel.run (boot sampleBoot) startsCat).bind (fun s =>
      ((catBeside 3).run (Session.start s (.args fun _ => 0)) catMoves).map fun y =>
        (decide (∀ i : Fin 1024, s.storeargs i = (lit ['f', 'r', 'a', 'm', 'e', '0']).getD i 0),
          decide (s.fs.HasFile (lit ['f', 'r', 'a', 'm', 'e', '0']) 1 ∧ s.files.CleanAt 3 ∧
            (s.fdEntry 3 2).filePos = 0 ∧ s.fs.fileLength 1 = 4 ∧
            s.fs.contents 1 = lit ['t', 'e', 'x', 't']),
          decide ((catBeside 3).Along CatUndisturbed (Session.start s (.args fun _ => 0)) catMoves),
          y.log.length)) = some (true, true, true, 5) := by decide +kernel
  obtain ⟨s, hs, hv⟩ := Option.bind_eq_some_iff.mp hv
  obtain ⟨y, hy, hv⟩ := Option.map_eq_some_iff.mp hv
  simp only [Prod.mk.injEq, decide_eq_true_eq] at hv
  obtain ⟨hargs, ⟨hfile, hclean, hpos, hlen, htext⟩, hg, hcalls⟩ := hv
  have h₀ : CatStarts s 3 (lit ['f', 'r', 'a', 'm', 'e', '0']) 1 :=
    ⟨funext hargs, by decide, by decide, hfile, hclean, hpos⟩
  obtain ⟨-, -, -, hend, hdone, -⟩ := cat_copies h₀ hg hy
  obtain ⟨hprog, hout⟩ := hdone (hend.mpr (by rw [hcalls, hlen]))
  exact ⟨s, y, hs, hy, hprog, hout.trans htext⟩

end Runs

end Mp3
