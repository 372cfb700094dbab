import Mp3Os.Erase

/-!
# Three terminals on their own

`Term` is one terminal without the rest of the machine: a text screen and a line editor. It takes
text to print, keys, and reads of its line (`TermInput`).

The kernel keeps three of them in one VGA page, three buffers and one set of globals, and switches
between them. After the boot phase this is invisible: what a terminal shows and what its line is
are what the terminal on its own comes to with the inputs that went to it, whatever happened on
the others in between (`terminals_refine`). A tick, a switch and a system call without output are no
input of any terminal.
-/

/-! ## Screens -/

namespace Screen

variable {α : Type} {w h : Nat} (blank : α)

/-- A cleared screen. -/
def cleared : Screen α w h := ⟨fun _ => blank, 0, 0⟩

/-- The cursor goes back, over blanks, to the column `x` or to the row `y`. -/
def backTo (x y : Nat) : Nat → Screen α w h → Screen α w h
  | 0, s => s
  | fuel + 1, s => if s.x ≠ x ∧ s.y ≠ y then backTo x y fuel (s.back blank) else s

end Screen

namespace Mp3

/-- The line recalled by Up, and what follows `buf_kb`. -/
def Kbd.recalled (k : Kbd) (st : Stack) (i : Nat) : UInt8 :=
  if i < 128 then k.previousBuf.getD i else st.after (i - 128)

/-- What goes to a terminal. -/
inductive TermInput where
  | text (bytes : List UInt8)
  | key (flags : Flags) (scanCode : Nat) (st : Stack)
  | readLine

/-- A terminal. -/
@[ext] structure Term where
  screen : Screen UInt8 80 25
  kb : KbState

namespace Term

variable (T : Term)

/-- Text is printed. -/
def print (bytes : List UInt8) : Screen UInt8 80 25 := T.screen.prints 32 Console.isNewline bytes

/-- What Up shows. -/
def upKey (st : Stack) : Screen UInt8 80 25 :=
  (T.screen.backTo 32 T.kb.kbd.saveX T.kb.kbd.saveY (80 * T.screen.y + T.screen.x + 1)).prints 32
    Console.isNewline (printfOut (T.kb.kbd.recalled st) st).chars

/-- What the other keys show. -/
def edit (flags : Flags) (scanCode : Nat) : Screen UInt8 80 25 :=
  if flags.ctrl ≠ 0 ∧ scanCode = 0x26 then .cleared 32
  else if scanCode = 0x0E ∧ T.kb.kbd.currIdx ≠ 0 then T.screen.back 32
  else if scanCode = 0x1C then T.print [ch '\n']
  else if T.kb.kbd.numChars < 127 ∧ 0 < scanCode ∧ scanCode < 0x3B then
    if keyChar flags scanCode ≠ 0 then T.print [keyChar flags scanCode] else T.screen
  else T.screen

/-- What the terminal does with an input. -/
def take : TermInput → Term
  | .text bytes => { T with screen := T.print bytes }
  | .key flags scanCode st => {
      screen :=
        if (modifierKey flags scanCode).isSome then T.screen
        else if scanCode = 0x48 then T.upKey st
        else T.edit flags scanCode
      kb := T.kb.press flags T.screen.x T.screen.y scanCode }
  | .readLine => { T with kb := T.kb.consume }

/-- Inputs in turn. -/
def takes (ins : List TermInput) : Term := ins.foldl take T

end Term

/-! ## The inputs of a run -/

/-- What `halt` prints: a text for each base shell that it tries to start again. -/
def Kernel.restartText (currPcb : Int) : Kernel → List ExecIn → List UInt8
  | _, [] => []
  | s, x :: xs =>
    let s := (((s.modPcb currPcb fun b => { b with pcbInUse := -1 }).modTerm currPcb fun t =>
      { t with currProcess := -1 }).print (lit ['R', 'e', 'e', '-']))
    lit ['R', 'e', 'e', '-'] ++
      match s.execute shellName x with
      | .user _ => []
      | .fail s' => restartText currPcb s' xs

namespace Kernel

variable (s : Kernel)

def haltText (xs : List ExecIn) : List UInt8 :=
  if (s.pcbs s.curr).parentPid = -1 then restartText s.curr s xs else []

/-- What the handler of an exception prints. -/
def faultText (vector : Nat) (xs : List ExecIn) : List UInt8 :=
  exceptionText vector ++ (s.print (exceptionText vector)).haltText xs

/-- The terminal `t` of the kernel. -/
def term (t : Int) : Term := ⟨s.view t, s.kbState t⟩

/-- What an event has for the terminal `t`: keys go to the visible terminal, text and reads to the
scheduled one. -/
def inputTo (t : Int) : Event → List TermInput
  | .key c st =>
    if t = s.visible ∧ ¬ isSwitch s.flags c.toNat then [.key s.flags c.toNat st] else []
  | .write fd buf mem n =>
    if t = s.curTerminal ∧ (s.writeTarget fd buf).isTerminal then
      [.text ((List.range n.toNat).map mem)]
    else []
  | .read fd buf _ _ _ =>
    if t = s.curTerminal ∧ (s.readTarget fd buf).isTerminal then [.readLine] else []
  | .halt _ xs => if t = s.curTerminal then [.text (s.haltText xs)] else []
  | .exception v xs => if t = s.curTerminal then [.text (s.faultText v xs)] else []
  | .vidmapFault a xs =>
    if t = s.curTerminal then [.text ((s.vidMapped a).faultText 14 xs)] else []
  | _ => []

/-- What a run has for it. -/
def inputsTo (t : Int) : Kernel → List Event → List TermInput
  | _, [] => []
  | s, e :: es =>
    s.inputTo t e ++
      match s.step e with
      | none => []
      | some s' => inputsTo t s' es

end Kernel

/-- The event keeps to the window: it is no key whose handler faults, which leaves the window where
the handler moved it, and no `vidmap` with a pointer into video memory. -/
def Apart (s : Kernel) : Event → Prop
  | .keyFault .. => False
  | .vidmap a => Kernel.vidmapAccepts a → ∀ i : Fin 4,
      ∀ pa ∈ (s.vidMapped a).paging.translate false ((a + i) % 4294967296), 4194304 ≤ pa
  | _ => True

instance (s : Kernel) : ∀ e, Decidable (Apart s e)
  | .keyFault .. => isFalse id
  | .vidmap _ => inferInstanceAs (Decidable (_ → _))
  | .tick .. | .tickLaunch .. | .key .. | .execUser .. | .execFail .. | .halt .. | .exception ..
  | .openFd .. | .closeFd .. | .read .. | .write .. | .getargs .. | .vidmapFault .. =>
    isTrue trivial

/-! ## Drawing -/

section Draw

variable {frame x y fuel : Nat} {c c' : Console}

namespace Console

theorem screen_backspace (hb : c.backspace frame = some c') :
    c'.screen frame = (c.screen frame).back 32 := by
  have h : c'.plane frame false = (c.plane frame false).back 32 := plane_backspace hb
  rwa [plane_false, plane_false] at h

theorem screen_clearKb : (c.clearKb frame).screen frame = .cleared 32 := by
  ext i
  · have hi : i.1 < 2000 := i.2
    simp only [screen, clearKb, updateCursor, blank, Screen.cleared]
    rw [if_pos (by omega), if_pos (by omega)]
  · rfl
  · rfl

/-- An erase loop that ends goes back. -/
theorem screen_eraseLine (h : (eraseLine frame x y fuel c).2 = true) :
    (eraseLine frame x y fuel c).1.screen frame = (c.screen frame).backTo 32 x y fuel := by
  induction fuel generalizing c with
  | zero => cases h
  | succ fuel ih =>
    unfold eraseLine at h ⊢
    unfold Screen.backTo
    by_cases hc : c.screenX ≠ x ∧ c.screenY ≠ y
    · have hs : (c.screen frame).x ≠ x ∧ (c.screen frame).y ≠ y := hc
      rw [if_pos hc] at h ⊢
      rw [if_pos hs]
      cases hb : c.backspace frame with
      | none => rw [hb] at h; cases h
      | some u =>
        rw [hb] at h
        rw [← screen_backspace hb]
        exact ih h
    · have hs : ¬ ((c.screen frame).x ≠ x ∧ (c.screen frame).y ≠ y) := hc
      rw [if_neg hc, if_neg hs]

end Console

variable {s s' u : Kernel} {st : Stack} {scanCode : Nat}

/-- The terminal that a key handler works on. -/
def Kernel.focus (s : Kernel) : Term := ⟨s.con.screen s.paging.videoFrame, s.activeKb⟩

theorem upKey_screen (h : s.con.InRange) (hr : s.upKey st = .ret u) :
    u.con.screen s.paging.videoFrame = s.focus.upKey st := by
  unfold Kernel.upKey at hr
  dsimp only at hr
  split at hr
  · rename_i he
    split at hr
    · cases hr
    · cases hr
      have hd : Console.Draws s.paging.videoFrame s.con _ := Console.eraseLine_draws h
        s.kbd.saveX s.kbd.saveY (80 * s.con.screenY + s.con.screenX + 1)
      refine (Console.screen_putcs hd.inRange _).trans ?_
      rw [Console.screen_eraseLine he]
      rfl
  · cases hr

theorem editKey_screen (h : s.con.InRange) (hs : ¬ isSwitch s.flags scanCode)
    (hr : s.editKey scanCode = .ret u) :
    u.con.screen s.paging.videoFrame = s.focus.edit s.flags scanCode := by
  have hputc : ∀ b, (s.con.putc s.paging.videoFrame b).screen s.paging.videoFrame =
      s.focus.print [b] := fun b => Console.screen_putc h b
  unfold Kernel.editKey at hr
  unfold Term.edit
  split at hr
  · rename_i hc
    cases hr
    rw [if_pos hc]
    exact Console.screen_clearKb
  rename_i hc
  rw [if_neg hc]
  split at hr
  · rename_i hb
    have hb' : scanCode = 0x0E ∧ s.focus.kb.kbd.currIdx ≠ 0 := hb
    rw [if_pos hb']
    unfold Kernel.backKey at hr
    split at hr
    · cases hr
    · rename_i con hcon
      cases hr
      exact Console.screen_backspace hcon
  rename_i hb
  have hb' : ¬ (scanCode = 0x0E ∧ s.focus.kb.kbd.currIdx ≠ 0) := hb
  rw [if_neg hb']
  split at hr
  · rename_i he
    cases hr
    rw [if_pos he]
    exact hputc (ch '\n')
  rename_i he
  rw [if_neg he]
  split at hr
  · rename_i hn
    have hn' : s.focus.kb.kbd.numChars < 127 ∧ 0 < scanCode ∧ scanCode < 0x3B := hn
    cases hr
    rw [if_pos hn']
    unfold Kernel.charKey
    dsimp only
    split
    · exact hputc _
    · rfl
  · rename_i hn
    have hn' : ¬ (s.focus.kb.kbd.numChars < 127 ∧ 0 < scanCode ∧ scanCode < 0x3B) := hn
    cases hr
    rw [if_neg hn']
    rfl

/-- A handler works on the screen of the visible terminal. -/
theorem focus_beginKey (h : s.con.InRange) : s.beginKey.focus = s.term s.visible := by
  have hcur := cursorAt_beginKey h
  have hkb : s.beginKey.kbState s.visible = s.beginKey.activeKb := kbState_visible (s := s.beginKey)
  have hpage : s.pageOf s.visible = 0xB8 := if_pos rfl
  rw [kbState_beginKey] at hkb
  refine Term.ext ?_ hkb.symm
  show s.beginKey.con.screen s.beginKey.paging.videoFrame = s.view s.visible
  rw [beginKey_videoFrame]
  refine Screen.ext (funext fun i => ?_) (congrArg Prod.fst hcur) (congrArg Prod.snd hcur)
  simp only [Console.screen, Kernel.view, Kernel.cellsOf, hpage]
  rfl

/-- What it leaves on the page is the screen of that terminal. -/
theorem view_endKey_visible (h : u.con.InRange) :
    u.endKey.view u.visible = u.con.screen 0xB8 := by
  have hpage : u.pageOf u.visible = 0xB8 := if_pos rfl
  have hcur : u.endKey.cursorOf u.visible = u.cursorAt := by rw [cursorOf_endKey h, if_pos rfl]
  unfold Kernel.view
  rw [cellsOf_endKey, hcur]
  ext i
  · simp only [Console.screen, Kernel.cellsOf, hpage]
  · rfl
  · rfl

/-- **A key on the visible terminal.** -/
theorem term_key_visible (hc : s.CursorsOk) (hk : s.kbd.Ok) (hs : ¬ isSwitch s.flags scanCode)
    (hr : s.keyboardHandler scanCode st = .ret s') :
    s'.term s.visible = (s.term s.visible).take (.key s.flags scanCode st) := by
  have hb := hc.beginKey.con
  have hkb := kbState_key hc hk hr s.visible
  rw [if_pos rfl] at hkb
  refine Term.ext ?_ hkb
  show s'.view s.visible = if (modifierKey s.flags scanCode).isSome then s.view s.visible
    else if scanCode = 0x48 then (s.term s.visible).upKey st
    else (s.term s.visible).edit s.flags scanCode
  rw [← focus_beginKey hc.con]
  unfold Kernel.keyboardHandler at hr
  split at hr
  · rename_i f hf
    cases hr
    rw [if_pos (by rw [hf]; rfl)]
    rfl
  rename_i hm
  rw [hm, if_neg (by decide)]
  dsimp only at hr
  split at hr
  · rename_i u hu
    cases hr
    split at hu
    · rename_i hup
      obtain ⟨con, kbd, hd, -, hst, -⟩ := upKey_draws hb st
      rw [hu] at hst
      have hin : u.con.InRange := by rw [show u = _ from hst]; exact hd.inRange
      have hvis : u.visible = s.visible := by rw [show u = _ from hst]; rfl
      rw [if_pos hup, ← upKey_screen hb hu, beginKey_videoFrame, ← hvis]
      exact view_endKey_visible hin
    · rename_i hup
      rcases editKey_draws (s := s.beginKey) hb hs with hf | ⟨con, hd, he⟩
      · rw [hf] at hu
        cases hu
      · have hin : u.con.InRange := by rw [he] at hu; cases hu; exact hd.inRange
        have hvis : u.visible = s.visible := by rw [he] at hu; cases hu; rfl
        rw [if_neg hup, show s.flags = s.beginKey.flags from rfl, ← editKey_screen hb hs hu,
          beginKey_videoFrame, ← hvis]
        exact view_endKey_visible hin
  · cases hr

end Draw

/-! ## Printing -/

section Print

variable {s s' : Kernel}

/-- A `halt` prints its text. -/
theorem restart_text {c : Int} {xs : List ExecIn} (h : Kernel.restart c s xs = some s') :
    s'.io = s.io.print (Kernel.restartText c s xs) := by
  induction xs generalizing s with
  | nil => cases h
  | cons x xs ih =>
    simp only [Kernel.restart] at h
    have hd : (((s.modPcb c fun b => { b with pcbInUse := -1 }).modTerm c fun t =>
        { t with currProcess := -1 }).print (lit ['R', 'e', 'e', '-'])).io =
        s.io.print (lit ['R', 'e', 'e', '-']) := by
      rw [io_print, io_modTerm_hidden rfl]
      rfl
    split at h
    · rename_i hu
      cases h
      simp only [Kernel.restartText, hu, List.append_nil]
      exact (execute_io (.inl hu)).trans hd
    · rename_i hu
      simp only [Kernel.restartText, hu]
      rw [ih h, execute_io (.inr hu), hd]
      simp [Kernel.print, Console.putcs]

theorem halt_text {st : UInt8} {xs : List ExecIn} {r : HaltResult} (h : s.halt st xs = some r) :
    r.state.io = s.io.print (s.haltText xs) := by
  unfold Kernel.haltText
  split
  · rename_i hp
    unfold Kernel.halt at h
    dsimp only at h
    rw [if_pos hp] at h
    obtain ⟨s', hr, rfl⟩ := Option.map_eq_some_iff.mp h
    exact restart_text hr
  · rename_i hp
    exact halt_child_io hp h

theorem exception_text {v : Nat} {xs : List ExecIn} (h : s.exception v xs = some s') :
    s'.io = s.io.print (s.faultText v xs) := by
  unfold Kernel.exception at h
  split at h
  · obtain ⟨r, hr, rfl⟩ := Option.map_eq_some_iff.mp h
    rw [halt_text hr, io_print]
    simp [Kernel.faultText, Kernel.print, Console.putcs]
  · cases h

theorem term_of_io (h : s'.io = s.io) (t : Int) : s'.term t = s.term t := by
  have ht : ∀ u : Kernel, u.io.term t = u.term t := fun _ => rfl
  rw [← ht, h, ht]

/-- Text goes to the scheduled terminal. -/
theorem term_print (h : s.Placed) (hp : 3 < s.pitCount) {text : List UInt8}
    (hi : s'.io = s.io.print text) (t : Fin 3) :
    s'.term t = (s.term t).takes (if (t : Int) = s.curTerminal then [.text text] else []) := by
  have hv := view_print h.wf h.cursors.con (h.window hp) text t
  rw [term_of_io (s := s.print text) hi]
  split at hv
  · rename_i ht
    rw [if_pos ht]
    exact Term.ext hv rfl
  · rename_i ht
    rw [if_neg ht]
    exact Term.ext hv rfl

end Print

/-! ## Video mappings -/

section Vidmap

variable {s s' : Kernel} {a : Nat}

/-- A store outside video memory. -/
theorem con_storeWord {va value : Nat} (hs : s.storeWord va value = some s')
    (hv : ∀ i : Fin 4, ∀ pa ∈ s.paging.translate false ((va + i) % 4294967296), 4194304 ≤ pa) :
    s'.con = s.con := by
  have hl : ∀ i ∈ ([0, 1, 2, 3] : List Nat), ∀ pa ∈ s.paging.translate false
      ((va + i) % 4294967296), 4194304 ≤ pa := fun i hi =>
    hv ⟨i, by simp at hi; omega⟩
  clear hv
  unfold Kernel.storeWord at hs
  generalize ([0, 1, 2, 3] : List Nat) = l at hs hl
  induction l generalizing s with
  | nil => cases hs; rfl
  | cons i l ih =>
    rw [List.foldlM_cons] at hs
    obtain ⟨u, hu, hs⟩ := Option.bind_eq_some_iff.mp hs
    obtain ⟨pa, hpa, rfl⟩ := Option.map_eq_some_iff.mp hu
    have hle := hl i (List.mem_cons_self ..) pa hpa
    rw [if_neg (by omega)] at hs
    have htail := ih hs fun j hj => hl j (List.mem_cons_of_mem _ hj)
    exact htail

theorem con_vidmap (ha : Apart s (.vidmap a)) (hs : s.step (.vidmap a) = some s') :
    s'.con = s.con := by
  obtain ⟨-, hs⟩ := syscall_eq hs
  unfold Kernel.sysVidmap at hs
  split at hs
  · rename_i u hu
    cases hs
    split at hu
    · rename_i hacc
      unfold Kernel.vidMap at hu
      dsimp only at hu
      split at hu
      · rename_i hst
        cases hu
        exact con_storeWord (s := s.vidMapped a) hst (ha hacc)
      · cases hu
    · cases hu
      rfl
  · cases hs

theorem term_vidMappedIo (t : Int) : (s.io.vidMappedIo s.con.vram).term t = s.term t := rfl

/-- A `vid_map` changes no terminal. -/
theorem term_vidmap (ha : Apart s (.vidmap a)) (hs : s.step (.vidmap a) = some s') (t : Int) :
    s'.term t = s.term t := by
  rcases vidmap_io hs with ⟨-, hi⟩ | ⟨-, vram, hi⟩
  · exact term_of_io hi t
  · have hvram : s.con.vram = vram := by
      rw [← con_vidmap ha hs]
      exact congrArg (fun u => u.con.vram) hi
    have ht : s'.io.term t = s'.term t := rfl
    rw [← ht, hi, ← hvram, term_vidMappedIo]

theorem placed_vidMapped (h : s.Placed) : (s.vidMapped a).Placed := by
  have hi : (s.vidMapped a).io = _ := io_vidMapped (s := s) a s.con.vram s.umem
  have hvid : (s.vidMapped a).vid = s.vid.map := by rw [← vid_io, hi, vid_vidMappedIo]
  have hc : (s.io.vidMappedIo s.con.vram).CursorsOk := ⟨h.cursors.con, h.cursors.saved⟩
  rw [← hi] at hc
  have hbuf : (s.vidMapped a).vid.buffer = s.vid.buffer := by rw [hvid]; rfl
  refine ⟨hvid ▸ h.wf.map, ⟨hc.con, hc.saved⟩, fun hp => ?_⟩
  exact (h.window hp).trans (pageOf_congr hbuf rfl s.curTerminal).symm

/-- A `vid_map` that faults prints the text of the fault. -/
theorem term_vidmapFault (h : s.Placed) (hp : 3 < s.pitCount) {xs : List ExecIn}
    (hs : s.step (.vidmapFault a xs) = some s') (t : Fin 3) :
    s'.term t = (s.term t).takes (s.inputTo t (.vidmapFault a xs)) := by
  have hi : (s.vidMapped a).io = _ := io_vidMapped (s := s) a s.con.vram s.umem
  have ht : (s.vidMapped a).io.term t = s.term t := by rw [hi, term_vidMappedIo]
  obtain ⟨-, hs⟩ := syscall_eq hs
  rcases Kernel.sysVidmap_cases (s := s) a with ⟨-, hv⟩ | ⟨-, hv | ⟨vram, umem, hv⟩⟩ <;>
    rw [hv] at hs
  · cases hs
  · rw [← ht]
    have htext := term_print (placed_vidMapped (a := a) h) hp (exception_text hs) t
    exact htext
  · cases hs

end Vidmap

/-! ## Runs -/

section Run

variable {s s' : Kernel} {e : Event}

/-- The boot phase does not come back. -/
theorem pitCount_step (h : s.Placed) (hp : 3 < s.pitCount) (ha : Apart s e)
    (hs : s.step e = some s') : 3 < s'.pitCount := by
  have hcur : s.io.CursorsOk := ⟨h.cursors.con, h.cursors.saved⟩
  have hpio : 3 < s.io.pitCount := hp
  suffices hi : s'.io.pitCount = s.io.pitCount from hi ▸ hpio
  cases ioStep hs with
  | same _ hi => rw [hi]
  | prints text _ hi => rw [hi]; rfl
  | tick _ hi => rw [hi]; rfl
  | tickLast hc hi => omega
  | tickFail hc hi => omega
  | tickLaunch hc hi => omega
  | key hi =>
    rcases keyboardHandler_ret hcur hi with ⟨f, -, hk⟩ | ⟨-, -, hk⟩ | ⟨-, -, con, -, hk⟩ <;>
      rw [hk]
    · exact congrArg Procs.pitCount (procs_switchTerminal (s := s.io.beginKey) _)
    · rfl
  | keyFault text hi hp => exact ha.elim
  | read hi =>
    obtain ⟨-, _, a, -, -, -, -, hk⟩ := terminalRead_eq hi
    rw [hk]
    rfl
  | vidmap vram _ hi => rw [hi]; rfl
  | vidmapFault vram text _ hi => rw [hi]; rfl

theorem view_finishRead (a : Buf 1024) (t : Int) : (s.finishRead a).view t = s.view t := by
  have hb : (s.finishRead a).vid.buffer = s.vid.buffer :=
    congrArg Vid.buffer (vid_setEnterFlag (s := { s with
      kbd := { s.kbd with bufKb := Buf.zero }, storeargs := a }) ..)
  have hsaved : (s.finishRead a).savedAt t = s.savedAt t :=
    savedAt_edited (s := { s with storeargs := a }) s.con ⟨{ s.kbd with bufKb := Buf.zero }, 1⟩ t
  refine view_congr (funext fun i => ?_) ?_
  · rw [Kernel.cellsOf, pageOf_congr hb rfl]
    rfl
  · rw [Kernel.cursorOf, hsaved]
    rfl

/-- A read draws nothing. -/
theorem view_read {fd : Int} {buf : Nat} {stack mem : Nat → UInt8} {n : Int} {r : SysResult}
    (h : s.sysRead fd buf stack mem n = some r) (t : Int) : r.state.view t = s.view t := by
  have hview : ∀ u : Kernel, u.io.view t = u.view t := fun _ => rfl
  rcases sysRead_io h with ⟨-, hi⟩ | ⟨-, ret, bytes, hr⟩
  · rw [← hview, hi, hview]
  · obtain ⟨-, _, a, -, -, -, -, hs⟩ := terminalRead_eq hr
    rw [hs]
    exact view_finishRead ..

/-- **One event on the terminals.** -/
theorem term_step (h : s.Placed) (hl : s.LinesOk) (hp : 3 < s.pitCount) (ha : Apart s e)
    (hs : s.step e = some s') (t : Fin 3) : s'.term t = (s.term t).takes (s.inputTo t e) := by
  cases e with
  | tick esp ebp x =>
    have hview : s'.io.view t = s.io.view t := by
      rw [tick_io hp hs]
      exact view_tick (s := s.io) h.cursors.con t
    exact Term.ext hview (kbState_noInput hl hs trivial t)
  | tickLaunch esp ebp x =>
    have := (tickLaunch_io hs).1
    omega
  | key c st =>
    simp only [Kernel.step] at hs
    split at hs
    · rename_i hr
      cases hs
      simp only [Kernel.inputTo]
      split
      · rename_i ht
        rw [ht.1]
        exact term_key_visible h.cursors hl.kbd ht.2 hr
      · rename_i ht
        have hor : isSwitch s.flags c.toNat ∨ (t : Int) ≠ s.visible := by tauto
        refine Term.ext (view_key h.wf h.cursors hr t hor) ?_
        refine (kbState_key h.cursors hl.kbd hr t).trans ?_
        split
        · rename_i hv
          exact KbState.press_switch (hor.resolve_right (not_not.mpr hv)) ..
        · rfl
    · cases hs
  | keyFault c st xs => exact ha.elim
  | halt ebx xs =>
    obtain ⟨-, hs⟩ := syscall_eq hs
    obtain ⟨r, hr, rfl⟩ := Option.map_eq_some_iff.mp hs
    exact term_print h hp (halt_text hr) t
  | exception v xs => exact term_print h hp (exception_text hs) t
  | read fd buf stack mem n =>
    obtain ⟨-, hs⟩ := syscall_eq hs
    obtain ⟨r, hr, rfl⟩ := Option.map_eq_some_iff.mp hs
    have hkb := kbState_read hr t
    simp only [Kernel.inputTo]
    split at hkb
    · rename_i ht
      rw [if_pos ht]
      exact Term.ext (view_read hr t) hkb
    · rename_i ht
      rw [if_neg ht]
      exact Term.ext (view_read hr t) hkb
  | write fd buf mem n =>
    have hkb := kbState_noInput hl hs trivial t
    obtain ⟨-, hs⟩ := syscall_eq hs
    obtain ⟨r, hr, rfl⟩ := Option.map_eq_some_iff.mp hs
    have hv := isolated_write h hp hr t
    simp only [Kernel.inputTo]
    split at hv
    · rename_i ht
      rw [if_pos ht]
      exact Term.ext hv hkb
    · rename_i ht
      rw [if_neg ht]
      exact Term.ext hv hkb
  | vidmap a => exact term_vidmap ha hs t
  | vidmapFault a xs => exact term_vidmapFault h hp hs t
  | execUser fname x => exact term_of_io (silent_io hs trivial) t
  | execFail fname x => exact term_of_io (silent_io hs trivial) t
  | openFd f => exact term_of_io (silent_io hs trivial) t
  | closeFd fd => exact term_of_io (silent_io hs trivial) t
  | getargs after mem n => exact term_of_io (silent_io hs trivial) t

/-- The invariant of the runs after the boot phase. -/
structure Kernel.Serves (s : Kernel) : Prop where
  placed : s.Placed
  lines : s.LinesOk
  booted : 3 < s.pitCount

theorem serves_step (h : s.Serves) (ha : Apart s e) (hs : s.step e = some s') : s'.Serves := by
  have hk : KeysReturn s e := fun _ => by
    cases e with
    | keyFault c st xs => exact ha.elim
    | _ => trivial
  exact ⟨placed_step h.placed hk hs, linesOk_step h.placed.cursors h.lines hs,
    pitCount_step h.placed h.booted ha hs⟩

theorem inputsTo_cons (t : Int) {es : List Event} (hs : s.step e = some s') :
    Kernel.inputsTo t s (e :: es) = s.inputTo t e ++ Kernel.inputsTo t s' es := by
  rw [Kernel.inputsTo, hs]

theorem takes_append (T : Term) (ins more : List TermInput) :
    T.takes (ins ++ more) = (T.takes ins).takes more := List.foldl_append ..

theorem term_run (h : s.Serves) {es : List Event} (ha : kernel.Along Apart s es)
    (hr : kernel.run s es = some s') (t : Fin 3) :
    s'.term t = (s.term t).takes (Kernel.inputsTo t s es) := by
  induction es generalizing s with
  | nil => cases hr; rfl
  | cons e es ih =>
    obtain ⟨u, hu, hr⟩ := Lts.run_cons.mp hr
    have hstep := term_step h.placed h.lines h.booted ha.1 hu t
    rw [ih (serves_step h ha.1 hu) (ha.2 u hu) hr, hstep, inputsTo_cons t hu, takes_append]

theorem serves_of_boot {b : BootIn} {es₀ : List Event} (h₀ : kernel.run (boot b) es₀ = some s)
    (hk : kernel.Along KeysReturn (boot b) es₀) (hp : 3 < s.pitCount) : s.Serves := by
  have hplaced : s.Placed := Lts.run_inv (fun _ _ _ hi hg hs => placed_step hi hg hs)
    (placed_boot b) hk h₀
  exact ⟨hplaced, (linesOk_run h₀).2, hp⟩

/-- A line is typed and read on terminal 0, `a` is typed on terminal 1, and the program of
terminal 0 writes. -/
def typeOnTwo : List Event :=
  sampleKeys [0x26, 0x1C] ++ [.read 0 0x8000000 (fun _ => 0) (fun _ => 0) 128] ++
    sampleKeys [0x38, 0x3C, 0x1E] ++
    [.vidmap 0x8000000, .write 1 0x8000000 (memory [(0, lit ['h', 'i'])]) 2, .tick 0 0 sampleExec]

end Run

end Mp3
