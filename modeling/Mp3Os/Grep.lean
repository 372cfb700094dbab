import Mp3Os.GrepScan
import Mp3Os.UserFiles

/-!
# Searching a file (`do_one_file` in `ece391grep.c`)

The function as a client of the kernel. On a text file whose blocks follow each other it prints,
beside other processes that leave the open files alone, exactly the lines that the pattern occurs
in, in their order, each behind the name of the file (`grep_one_file`), wherever the reads cut the
lines.

`GrepHolds` is the invariant: what was printed, and what is still to print of the buffer and the
rest of the file, are together what is to print of the file.
-/

namespace Mp3

/-- Where `do_one_file` is, with its `fd`, `data`, `last`, `cnt` and the line that it prints; `k` says
which of the four `ece391_fdputs` of a line comes next. -/
inductive Grep where
  | opens (data : Nat → UInt8)
  | reads (fd : Int) (data : Nat → UInt8) (last : Nat)
  | puts (k : Nat) (fd : Int) (data : Nat → UInt8) (last : Nat) (cnt : Int)
      (lineStart lineEnd : Nat)
  | closes (fd : Int)
  | message (text : List UInt8)
  | returns (value : Int)

def grepOpenFailed : List UInt8 :=
  lit ['f', 'i', 'l', 'e', ' ', 'o', 'p', 'e', 'n', ' ', 'f', 'a', 'i', 'l', 'e', 'd', '\n']

def grepReadFailed : List UInt8 :=
  lit ['f', 'i', 'l', 'e', ' ', 'r', 'e', 'a', 'd', ' ', 'f', 'a', 'i', 'l', 'e', 'd', '\n']

def grepCloseFailed : List UInt8 :=
  lit ['f', 'i', 'l', 'e', ' ', 'c', 'l', 'o', 's', 'e', ' ', 'f', 'a', 'i', 'l', 'e', 'd', '\n']

namespace Grep

variable (s fname : Nat → UInt8)

/-- The call that comes next. -/
def call : Grep → Option UserCall
  | opens _ => some (.openFd fname)
  | reads fd data last => some (.read fd (fun i => data (last + i)) ((1024 - last : Nat) : Int))
  | puts 0 _ _ _ _ _ _ => some (fdputsFrom fname)
  | puts 1 _ _ _ _ _ _ => some (fdputs (lit [':']))
  | puts 2 _ data _ _ lineStart _ => some (fdputsFrom fun i => data (lineStart + i))
  | puts _ _ _ _ _ _ _ => some (fdputs (lit ['\n']))
  | closes fd => some (.closeFd fd)
  | message text => some (fdputs text)
  | returns _ => none

/-- Where the inner loop leads. -/
def afterScan (fd : Int) (last : Nat) (cnt : Int) : Scan → Grep
  | .found data lineStart lineEnd => puts 0 fd data last cnt lineStart lineEnd
  | .stop data last' => if cnt = 0 then closes fd else reads fd data last'

/-- Where the function goes on with a result. -/
def resume : Grep → UserResult → Grep
  | opens data, r => if r.ret = -1 then message grepOpenFailed else reads r.ret data 0
  | reads fd data last, r =>
    if r.ret = -1 then message grepReadFailed
    else
      let data := fun i => if last ≤ i then r.mem (i - last) else data i
      let last := last + r.ret.toNat
      afterScan fd last r.ret (scanLines s (ece391Strlen 1025 s) last r.ret 1025 data 0)
  | puts k fd data last cnt lineStart lineEnd, _ =>
    if k < 3 then puts (k + 1) fd data last cnt lineStart lineEnd
    else afterScan fd last cnt (scanNext s (ece391Strlen 1025 s) last cnt data lineEnd)
  | closes _, r => if r.ret = -1 then message grepCloseFailed else returns 0
  | message _, _ => returns (-1)
  | returns value, _ => returns value

/-- The function has returned. -/
def Ended : Grep → Prop
  | returns _ => True
  | _ => False

/-- The function has opened its file and has not returned. -/
def holdsFile : Grep → Bool
  | opens _ | returns _ => false
  | _ => true

end Grep

/-- `do_one_file(s, fname)`. -/
def grepProgram (s fname : Nat → UInt8) : Client UserCall UserResult :=
  ⟨Grep, Grep.call fname, Grep.resume s⟩

/-- The function in process `p`, beside the others. -/
def grepBeside (s fname : Nat → UInt8) (p : Int) :
    Lts (Session Kernel UserCall Grep) (Move UserIn Event) :=
  (grepProgram s fname).beside (processService p) kernel (Kernel.NotBy p)

/-- From the open to the end nobody else opens or closes a file. -/
def GrepUndisturbed (x : Session Kernel UserCall Grep) : Move UserIn Event → Prop
  | .own _ => True
  | .other e => x.prog.holdsFile = true → e.LeavesFiles

instance (x : Session Kernel UserCall Grep) :
    (m : Move UserIn Event) → Decidable (GrepUndisturbed x m)
  | .own _ => isTrue trivial
  | .other _ => inferInstanceAs (Decidable (_ → _))

/-- The writes for a line. -/
def grepLine (name line : List UInt8) : List (List UInt8) := [name, lit [':'], line, lit ['\n']]

/-- What is to print of a text: the lines that `str` occurs in, each behind the name. -/
def grepText (name str text : List UInt8) : List UInt8 :=
  (Lines.matching nl str text).flatMap fun l => (grepLine name l).flatten

/-- The file is a text: there are no NULs, and the lines are shorter than the buffer. -/
structure IsText (fs : FileSys) (inode : Nat) : Prop where
  noNul : 0 ∉ fs.contents inode
  short : Lines.Short nl 1024 (fs.contents inode)
  consecutive : fs.Consecutive inode

/-- Process `p` searches a file, which gets descriptor `fd`. -/
structure GrepStarts (s₀ : Kernel) (p fd : Int) (name str : List UInt8) (inode : Nat) : Prop where
  file : s₀.fs.HasFile name inode
  text : IsText s₀.fs inode
  name_ne : name ≠ []
  name_lt : name.length < 1025
  str_ne : str ≠ []
  str_lt : str.length < 1025
  lowest : s₀.files.LowestFree p fd
  ge : 3 ≤ fd
  lt : fd < 6
  rewound : (s₀.fdEntry p fd).filePos = 0

/-! ## The invariant -/

section Invariant

variable (s₀ : Kernel) (p fd : Int) (name str : List UInt8) (inode : Nat)

/-- The number of calls: one for each byte and one at the end of the file, four for each line to
print, the open and the close. -/
def grepBudget : Nat :=
  s₀.fs.fileLength inode + 4 * (Lines.matching nl str (s₀.fs.contents inode)).length + 3

/-- The rest of the file. -/
def grepRest (pos : Nat) : List UInt8 := (s₀.fs.contents inode).drop pos

/-- `out`, the rest `todo` of a line and what is to print of `text` are what is to print of the file,
and the calls for them are left, and `extra` ones. -/
structure GrepLeft (out : List UInt8) (calls pos : Nat) (extra : Nat) (todo text : List UInt8) :
    Prop where
  out : out ++ todo ++ grepText name str text = grepText name str (s₀.fs.contents inode)
  calls : calls + extra + (s₀.fs.fileLength inode - pos) + 4 * (Lines.matching nl str text).length ≤
    grepBudget s₀ str inode

/-- What holds at each call, of the kernel and of what was printed with how many calls. -/
def GrepHolds (s : Kernel) (out : List UInt8) (calls : Nat) : Grep → Prop
  | .opens data => (∀ i ≤ 1024, data i ≠ nl) ∧ s.fdEntry p = s₀.fdEntry p ∧ out = [] ∧ calls = 0
  | .reads fd' data last => fd' = fd ∧ ∃ pos ≤ s₀.fs.fileLength inode,
      s.OpenAt p fd inode pos ∧ BufferOk data last (grepRest s₀ inode pos) ∧
      GrepLeft s₀ name str inode out calls pos 2 [] (seg data 0 last ++ grepRest s₀ inode pos)
  | .puts k fd' data last cnt lineStart lineEnd => fd' = fd ∧ k < 4 ∧
      ∃ pos ≤ s₀.fs.fileLength inode,
        s.OpenAt p fd inode (if cnt = 0 then 0 else pos) ∧
        (cnt = 0 → pos = s₀.fs.fileLength inode) ∧ lineEnd ≤ last ∧
        IsName (fun i => data (lineStart + i)) (seg data lineStart lineEnd) ∧
        ScanOk data last cnt (lineEnd + 1) (grepRest s₀ inode pos) ∧
        GrepLeft s₀ name str inode out calls pos (4 - k + if cnt = 0 then 1 else 2)
          ((grepLine name (seg data lineStart lineEnd)).drop k).flatten
          (seg data (lineEnd + 1) last ++ grepRest s₀ inode pos)
  | .closes fd' => fd' = fd ∧ s.OpenAt p fd inode 0 ∧
      out = grepText name str (s₀.fs.contents inode) ∧ calls + 1 ≤ grepBudget s₀ str inode
  | .message _ => False
  | .returns value => value = 0 ∧ out = grepText name str (s₀.fs.contents inode) ∧
      calls ≤ grepBudget s₀ str inode

/-- The invariant of `do_one_file`. -/
structure GrepInv (x : Session Kernel UserCall Grep) : Prop where
  running : x.waiting = false
  disk : x.sys.fs.disk = s₀.fs.disk
  holds : GrepHolds s₀ p fd name str inode x.sys (written x.log) x.log.length x.prog

end Invariant

section Keeps

variable {s₀ s s' : Kernel} {p fd : Int} {name str out : List UInt8} {inode calls pos : Nat} {a : Grep}
  {q : UserCall} {e : Event} {sp fname : Nat → UInt8}

/-- The others keep what `do_one_file` relies on. -/
theorem grepHolds_other {y : Session Kernel UserCall Grep}
    (h : GrepHolds s₀ p fd name str inode y.sys out calls y.prog) (hg : GrepUndisturbed y (.other e))
    (hn : y.sys.NotBy p e) (hs : y.sys.step e = some s') :
    GrepHolds s₀ p fd name str inode s' out calls y.prog := by
  obtain ⟨s, a, w, log⟩ := y
  cases a with
  | opens data =>
    obtain ⟨hdata, htab, hrest⟩ := h
    exact ⟨hdata, (funext (notBy_table hn hs)).trans htab, hrest⟩
  | reads fd' data last =>
    obtain ⟨hfd, pos, hp, hopen, hrest⟩ := h
    exact ⟨hfd, pos, hp, hopen.other hn (hg rfl) hs, hrest⟩
  | puts k fd' data last cnt lineStart lineEnd =>
    obtain ⟨hfd, hk, pos, hp, hopen, hrest⟩ := h
    exact ⟨hfd, hk, pos, hp, hopen.other hn (hg rfl) hs, hrest⟩
  | closes fd' =>
    obtain ⟨hfd, hopen, hrest⟩ := h
    exact ⟨hfd, hopen.other hn (hg rfl) hs, hrest⟩
  | message text => exact h
  | returns value => exact h

/-- **Where the inner loop leads** the invariant holds. -/
theorem grepHolds_scan {last : Nat} {cnt : Int} {text : List UInt8} {r : Scan} (hne : str ≠ [])
    (hr : Scanned str last cnt (grepRest s₀ inode pos) text r) (hp : pos ≤ s₀.fs.fileLength inode)
    (hopen : s.OpenAt p fd inode (if cnt = 0 then 0 else pos))
    (hend : cnt = 0 → pos = s₀.fs.fileLength inode)
    (hleft : GrepLeft s₀ name str inode out calls pos (if cnt = 0 then 1 else 2) [] text) :
    GrepHolds s₀ p fd name str inode s out calls (Grep.afterScan fd last cnt r) := by
  obtain ⟨hout, hcalls⟩ := hleft
  rw [List.append_nil] at hout
  cases r with
  | found data lineStart lineEnd =>
    obtain ⟨hname, hle, hok, hm⟩ := hr
    refine ⟨rfl, by decide, pos, hp, hopen, hend, hle, hname, hok, ?_, ?_⟩
    · have htext : grepText name str text = (grepLine name (seg data lineStart lineEnd)).flatten ++
          grepText name str (seg data (lineEnd + 1) last ++ grepRest s₀ inode pos) := by
        rw [grepText, hm, List.flatMap_cons]
        rfl
      rw [← hout, htext, List.drop_zero, List.append_assoc]
    · rw [hm, List.length_cons] at hcalls
      omega
  | stop data last' =>
    obtain ⟨hok, hz, hm⟩ := hr
    by_cases hc : cnt = 0
    · -- the file is read to its end
      have hrest : grepRest s₀ inode pos = [] :=
        List.drop_eq_nil_of_le (by rw [length_contents, hend hc])
      have hnil : Lines.matching nl str text = [] := by
        rw [hm, hz hc, hrest, seg_nil (Nat.le_refl 0), List.append_nil, Lines.matching_nil hne]
      simp only [Grep.afterScan, hc, ↓reduceIte] at hopen hcalls ⊢
      rw [grepText, hnil, List.flatMap_nil, List.append_nil] at hout
      exact ⟨rfl, hopen, hout, by omega⟩
    · simp only [Grep.afterScan, hc, ↓reduceIte] at hopen hcalls ⊢
      refine ⟨rfl, pos, hp, hopen, hok, ?_, ?_⟩
      · rw [List.append_nil, ← hout, grepText, grepText, hm]
      · rw [← hm]
        exact hcalls

variable (h₀ : GrepStarts s₀ p fd name str inode) (hs : IsName sp str) (hf : IsName fname name)
  (hd : s.fs.disk = s₀.fs.disk) (hp : s.RunsProcess p)

include h₀ hs hd hp

/-- **A read**, and the search of the buffer. -/
theorem grepHolds_read {data : Nat → UInt8} {last : Nat} {fd' : Int}
    (h : GrepHolds s₀ p fd name str inode s out calls (.reads fd' data last)) (x : UserIn) :
    ∃ r s', s.serve x (.read fd' (fun i => data (last + i)) ((1024 - last : Nat) : Int)) =
        some (some r, s') ∧
      GrepHolds s₀ p fd name str inode s' out (calls + 1)
        (Grep.resume sp (.reads fd' data last) r) := by
  obtain ⟨rfl, pos, hle, hopen, hok, hleft⟩ := h
  have hcont : s.fs.contents = s₀.fs.contents := contents_of_disk hd
  have hlen : s.fs.fileLength = s₀.fs.fileLength := fileLength_of_disk hd
  have hfile := h₀.file.of_disk hd
  have hL := length_contents s₀.fs inode
  have hlt := hok.lt
  have hge := h₀.ge
  have hle' : pos ≤ s.fs.fileLength inode := hlen ▸ hle
  have hdata := readData_consecutive hfile.wellFormed hfile.inode_lt (h₀.text.consecutive.of_disk hd)
    (c := 1024 - last) (by omega) hle' fun i => data (last + i)
  obtain ⟨s', hread, hnext⟩ := sysRead_cursor hopen hfile (by omega) h₀.lt hp.2 (by omega) hle'
    x.addr_ne x.stack hdata
  rw [hcont] at hread hnext
  have hpiece : (Cursor.piece (s₀.fs.contents inode) (1024 - last) pos).length =
      min (1024 - last) ((s₀.fs.contents inode).length - pos) := Cursor.length_piece
  rw [hL] at hpiece
  have hserve : s.serve x (.read fd' (fun i => data (last + i)) ((1024 - last : Nat) : Int)) =
      some (some ⟨_, _⟩, s') := Option.map_eq_some_iff.mpr ⟨_, hread, rfl⟩
  have hcut : Cursor.piece (s₀.fs.contents inode) (1024 - last) pos ++
      grepRest s₀ inode (pos + (Cursor.piece (s₀.fs.contents inode) (1024 - last) pos).length) =
      grepRest s₀ inode pos := by
    have hpre : Cursor.piece (s₀.fs.contents inode) (1024 - last) pos <+: grepRest s₀ inode pos :=
      List.take_prefix ..
    rw [grepRest, ← List.drop_drop]
    exact List.prefix_iff_eq_append.mp hpre
  have hnext' : Cursor.next (s₀.fs.contents inode) (1024 - last) pos =
      if ((Cursor.piece (s₀.fs.contents inode) (1024 - last) pos).length : Int) = 0 then 0
      else pos + (Cursor.piece (s₀.fs.contents inode) (1024 - last) pos).length := by
    unfold Cursor.next
    simp only [← List.length_eq_zero_iff, Int.natCast_eq_zero]
  have hmem : ∀ b ∈ Cursor.piece (s₀.fs.contents inode) (1024 - last) pos,
      b ∈ s₀.fs.contents inode := fun b hb =>
    List.mem_of_mem_drop (List.mem_of_mem_take hb)
  rw [hnext'] at hnext
  refine ⟨_, s', hserve, ?_⟩
  simp only [Grep.resume, ece391Strlen_eq hs h₀.str_lt, Int.toNat_natCast, overwrite_window]
  generalize Cursor.piece (s₀.fs.contents inode) (1024 - last) pos = piece at *
  rw [if_neg (by omega)]
  -- the buffer holds the incomplete line and the piece behind it
  have hlow : seg (overwrite data last piece) 0 last = seg data 0 last :=
    seg_congr fun i _ hi => if_neg (by omega)
  have hhigh : seg (overwrite data last piece) last (last + piece.length) = piece := by
    apply List.ext_getElem
    · simp
    · intro i hi hi'
      rw [getElem_seg, overwrite_of_lt (by omega) (by omega)]
      congr 1
      omega
  have hseg : seg (overwrite data last piece) 0 (last + piece.length) = seg data 0 last ++ piece := by
    rw [← seg_append (Nat.zero_le last) (Nat.le_add_right ..), hlow, hhigh]
  have htext : seg (overwrite data last piece) 0 (last + piece.length) ++
      grepRest s₀ inode (pos + piece.length) = seg data 0 last ++ grepRest s₀ inode pos := by
    rw [hseg, List.append_assoc, hcut]
  have hscan : ScanOk (overwrite data last piece) (last + piece.length) piece.length 0
      (grepRest s₀ inode (pos + piece.length)) := by
    refine ⟨by omega, fun i hi hn => ⟨Nat.zero_le i, ?_⟩, ?_, ?_, fun hrest => ?_⟩
    · by_contra hlt'
      rw [overwrite_of_le (by omega)] at hn
      exact hok.newlines i hi hn
    · rw [hseg]
      intro h0
      rcases List.mem_append.mp h0 with h0 | h0
      · exact hok.noNul h0
      · exact h₀.text.noNul (hmem 0 h0)
    · rw [htext]
      exact hok.short
    · have hpos : pos + piece.length < s₀.fs.fileLength inode := by
        by_contra hge'
        exact hrest (List.drop_eq_nil_of_le (by omega))
      constructor <;> omega
  have hspec := scanLines_spec hs h₀.str_ne 1025 hscan (Nat.zero_le _) (fun h => h.symm) (by omega)
  rw [htext] at hspec
  refine grepHolds_scan h₀.str_ne hspec (by omega) hnext (by omega) ⟨hleft.out, ?_⟩
  have hcalls := hleft.calls
  split <;> omega

omit hd hp in
/-- **A write** of one of the four parts of a line. -/
theorem grepHolds_put {data : Nat → UInt8} {k last lineStart lineEnd : Nat} {fd' cnt : Int}
    {mem : Nat → UInt8} {n : Int} {x : UserIn}
    (h : GrepHolds s₀ p fd name str inode s out calls (.puts k fd' data last cnt lineStart lineEnd))
    (hq : (UserCall.write 1 mem n).output = (grepLine name (seg data lineStart lineEnd)).getD k []) :
    ∃ r s', s.serve x (.write 1 mem n) = some (some r, s') ∧
      GrepHolds s₀ p fd name str inode s' (out ++ (UserCall.write 1 mem n).output) (calls + 1)
        (Grep.resume sp (.puts k fd' data last cnt lineStart lineEnd) r) := by
  obtain ⟨rfl, hk, pos, hle, hopen, hend, hlast, hname, hok, hout, hcalls⟩ := h
  have hserve : s.serve x (.write 1 mem n) = some (some ⟨_, _⟩, _) :=
    Option.map_eq_some_iff.mpr ⟨_, sysWrite_terminal x.addr_ne mem n, rfl⟩
  refine ⟨_, _, hserve, ?_⟩
  have hopen' : (s.terminalWriteFrom mem n).state.OpenAt p fd' inode (if cnt = 0 then 0 else pos) :=
    ⟨hopen.entry, hopen.pid, hopen.fd⟩
  have hpart : ((grepLine name (seg data lineStart lineEnd)).drop k).flatten =
      (UserCall.write 1 mem n).output ++
        ((grepLine name (seg data lineStart lineEnd)).drop (k + 1)).flatten := by
    have hlen : k < (grepLine name (seg data lineStart lineEnd)).length := hk
    rw [List.drop_eq_getElem_cons hlen, List.flatten_cons, hq, List.getD_eq_getElem _ _ hlen]
  rw [hpart] at hout
  by_cases h3 : k < 3
  · simp only [Grep.resume, h3, ↓reduceIte]
    refine ⟨rfl, by omega, pos, hle, hopen', hend, hlast, hname, hok, ?_, by omega⟩
    rw [← hout]
    simp only [List.append_assoc]
  · simp only [Grep.resume, h3, ↓reduceIte, ece391Strlen_eq hs h₀.str_lt]
    refine grepHolds_scan h₀.str_ne (scanNext_spec hs h₀.str_ne hok) hle hopen' hend ⟨?_, by omega⟩
    have hdone : ((grepLine name (seg data lineStart lineEnd)).drop (k + 1)).flatten = [] := by
      rw [List.drop_eq_nil_of_le (by simp [grepLine]; omega), List.flatten_nil]
    rw [hdone, List.append_nil] at hout
    rw [List.append_nil, hout]

include hf

/-- **One call of `do_one_file`** returns, and leads to the next. -/
theorem grepHolds_serve (h : GrepHolds s₀ p fd name str inode s out calls a)
    (hq : a.call fname = some q) (x : UserIn) :
    ∃ r s', s.serve x q = some (some r, s') ∧ s'.fs.disk = s₀.fs.disk ∧
      GrepHolds s₀ p fd name str inode s' (out ++ q.output) (calls + 1) (a.resume sp r) := by
  have hdisk : ∀ {r s'}, s.serve x q = some (some r, s') → s'.fs.disk = s₀.fs.disk := fun hsv =>
    (disk_step (serve_step hp hsv)).trans hd
  cases a with
  | opens data =>
    cases hq
    obtain ⟨hdata, htab, rfl, rfl⟩ := h
    have hlow : s.files.LowestFree p fd := by
      have hl := h₀.lowest
      have htable : s.files.table p = s₀.files.table p := htab
      refine ⟨hl.ge, hl.lt, ?_, fun i h2 hi => ?_⟩
      · rw [htable]
        exact hl.free
      · rw [htable]
        exact hl.lower i h2 hi
    have hpos : (s.fdEntry p fd).filePos = (0 : Nat) := by
      rw [htab]
      exact h₀.rewound
    obtain ⟨hret, hopen⟩ := openAt_openFd (h₀.file.of_disk hd) hf h₀.name_ne hp.2 hlow hpos
    have hge := h₀.ge
    have htext : seg data 0 0 ++ grepRest s₀ inode 0 = s₀.fs.contents inode := by
      rw [seg_nil (Nat.le_refl 0), List.nil_append, grepRest, List.drop_zero]
    refine ⟨_, _, rfl, hdisk rfl, ?_⟩
    simp only [Grep.resume, hret, show ¬ fd = -1 by omega, ↓reduceIte]
    refine ⟨rfl, 0, Nat.zero_le _, hopen, ⟨by decide, hdata, ?_, ?_⟩, ?_, ?_⟩
    · rw [seg_nil (Nat.le_refl 0)]
      exact List.not_mem_nil
    · rw [htext]
      exact h₀.text.short
    · rw [htext]
      rfl
    · rw [htext, grepBudget]
      omega
  | reads fd' data last =>
    cases hq
    obtain ⟨r, s', hserve, hh⟩ := grepHolds_read h₀ hs hd hp h x
    refine ⟨r, s', hserve, hdisk hserve, ?_⟩
    rw [output_read, List.append_nil]
    exact hh
  | puts k fd' data last cnt lineStart lineEnd =>
    have hh := h
    obtain ⟨-, hk, _, -, -, -, hlast, hname, hok, -⟩ := hh
    have hline : (seg data lineStart lineEnd).length < 1025 := by
      have hle := hok.le
      rw [length_seg]
      omega
    have hput : ∀ {mem n}, q = .write 1 mem n →
        (UserCall.write 1 mem n).output = (grepLine name (seg data lineStart lineEnd)).getD k [] →
        ∃ r s', s.serve x q = some (some r, s') ∧ s'.fs.disk = s₀.fs.disk ∧
          GrepHolds s₀ p fd name str inode s' (out ++ q.output) (calls + 1)
            (Grep.resume sp (.puts k fd' data last cnt lineStart lineEnd) r) := by
      rintro mem n rfl ho
      obtain ⟨r, s', hserve, hh⟩ := grepHolds_put h₀ hs h ho
      exact ⟨r, s', hserve, hdisk hserve, hh⟩
    -- the four parts of a line
    rcases (by omega : k = 0 ∨ k = 1 ∨ k = 2 ∨ k = 3) with rfl | rfl | rfl | rfl
    · cases hq
      exact hput rfl (output_fdputsFrom hf h₀.name_lt)
    · cases hq
      exact hput rfl (output_fdputs _)
    · cases hq
      exact hput rfl (output_fdputsFrom hname hline)
    · cases hq
      exact hput rfl (output_fdputs _)
  | closes fd' =>
    cases hq
    obtain ⟨rfl, hopen, rfl, hcalls⟩ := h
    have hge := h₀.ge
    have hcloses : s.Closes fd' := by
      refine ⟨by omega, h₀.lt, ?_⟩
      rw [hp.2, hopen.entry]
    have hret : (s.sysClose fd').1 = 0 := by rw [sysClose_eq, if_pos hcloses]
    refine ⟨_, _, rfl, hdisk rfl, ?_⟩
    simp only [Grep.resume, hret, show ¬ (0 : Int) = -1 by decide, ↓reduceIte]
    exact ⟨rfl, List.append_nil _, hcalls⟩
  | message text => exact h.elim
  | returns value => cases hq

end Keeps

section Runs

variable {s₀ : Kernel} {p fd : Int} {name str : List UInt8} {inode : Nat} {s fname data : Nat → UInt8}
  {y : Session Kernel UserCall Grep} {ms : List (Move UserIn Event)}

/-- A call keeps the invariant. -/
theorem grepInv_serve {u : Kernel} {a : Grep} {log : List (Kernel × UserCall)} {q : UserCall}
    (h₀ : GrepStarts s₀ p fd name str inode) (hs : IsName s str) (hf : IsName fname name)
    (hi : GrepInv s₀ p fd name str inode ⟨u, a, false, log⟩) (hq : a.call fname = some q)
    (hp : u.RunsProcess p) (x : UserIn) : ∃ r u', (processService p).serve u x q = some (some r, u') ∧
      GrepInv s₀ p fd name str inode ⟨u', a.resume s r, false, log ++ [(u, q)]⟩ := by
  obtain ⟨r, u', hv, hd, hh⟩ := grepHolds_serve h₀ hs hf hi.disk hp hi.holds hq x
  refine ⟨r, u', processService_serve.mpr ⟨hp, hv⟩, rfl, hd, ?_⟩
  rw [written_append, List.length_append]
  exact hh

/-- **The invariant holds along every undisturbed run.** -/
theorem grepInv_run (h₀ : GrepStarts s₀ p fd name str inode) (hs : IsName s str)
    (hf : IsName fname name) (hdata : ∀ i ≤ 1024, data i ≠ nl)
    (hg : (grepBeside s fname p).Along GrepUndisturbed (Session.start s₀ (.opens data)) ms)
    (hr : (grepBeside s fname p).run (Session.start s₀ (.opens data)) ms = some y) :
    GrepInv s₀ p fd name str inode y := by
  have hstart : GrepInv s₀ p fd name str inode (Session.start s₀ (.opens data)) :=
    ⟨rfl, rfl, hdata, rfl, rfl, rfl⟩
  refine Client.beside_returns (C := grepProgram s fname) runsProcess_of_serve GrepInv.running ?_ ?_
    hstart hg hr
  · intro u a log x q hi hq hp
    exact grepInv_serve h₀ hs hf hi hq hp x
  · intro x e u' hi hg hn hv
    exact ⟨hi.running, (disk_step hv).trans hi.disk, grepHolds_other (y := x) hi.holds hg hn hv⟩

/-- What is printed at each call is a beginning of what is to print. -/
theorem GrepInv.prefix_text (h : GrepInv s₀ p fd name str inode y) :
    written y.log <+: grepText name str (s₀.fs.contents inode) ∧
      y.log.length ≤ grepBudget s₀ str inode := by
  obtain ⟨u, a, w, log⟩ := y
  obtain ⟨-, -, hh⟩ := h
  dsimp only at hh ⊢
  cases a with
  | opens data =>
    obtain ⟨-, -, hout, hcalls⟩ := hh
    rw [hout]
    exact ⟨List.nil_prefix, by omega⟩
  | reads fd' data last =>
    obtain ⟨-, pos, -, -, -, hout, hcalls⟩ := hh
    rw [List.append_nil] at hout
    exact ⟨⟨_, hout⟩, by omega⟩
  | puts k fd' data last cnt lineStart lineEnd =>
    obtain ⟨-, -, pos, -, -, -, -, -, -, hout, hcalls⟩ := hh
    rw [List.append_assoc] at hout
    exact ⟨⟨_, hout⟩, by omega⟩
  | closes fd' =>
    obtain ⟨-, -, hout, hcalls⟩ := hh
    rw [hout]
    exact ⟨List.prefix_rfl, by omega⟩
  | message text => exact hh.elim
  | returns value =>
    obtain ⟨-, hout, hcalls⟩ := hh
    rw [hout]
    exact ⟨List.prefix_rfl, hcalls⟩

/-- The search for `ex` in `frame0`, with `.` open as in `main`, and a key between the calls. -/
def grepMoves : List (Move UserIn Event) :=
  let own : Move UserIn Event := .own sampleIn
  [own, own, own, own] ++ (sampleKeys [0x30]).map .other ++ [own, own, own, own]

end Runs

end Mp3
