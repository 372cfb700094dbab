import Mp3Os.Isolation
import Mp3Os.Lib.Tlb

/-!
# Paging and the translation buffer (`flush_tlb` in `pagingasm.S`)

The processor does not walk the tables at every access: it keeps copies, by pages of 4 KB. Each
function that writes the tables calls `flush_tlb`, some after several writes, and `vid_map` only
after a store that can fault. `pagingOps` are the writes and flushes of an event in the order of the
source. They lead to the tables of the model and leave no write without a flush behind it
(`pagingOps_leads`).

So in every run, whatever the processor copies and drops at any time, accesses go where the tables
say (`accesses_follow_tables`), and the isolation of user programs holds for them
(`buffered_isolation`).
-/

namespace Mp3

open Tlb

/-- What a walk finds for a page: the frame of 4 KB, and whether users may use it. -/
structure PageEntry where
  frame : Nat
  user : Bool
  deriving DecidableEq

/-- The walk of the processor for a page of 4 KB; a part of a page of 4 MB is copied as well. -/
def Paging.walk (P : Paging) (page : Nat) : Option PageEntry :=
  let pde := P.pageDirectory (page / 1024)
  if pde.testBit 0 then
    if pde.testBit 7 then some ⟨pde / 4194304 * 1024 + page % 1024, pde.testBit 2⟩
    else
      (P.tableAt pde).bind fun table =>
        let pte := table (page % 1024)
        if pte.testBit 0 then some ⟨pte / 4096, pde.testBit 2 && pte.testBit 2⟩ else none
  else none

/-- The physical address for an access, by what is found for its page. -/
def PageEntry.address (e : PageEntry) (user : Bool) (va : Nat) : Option Nat :=
  if !user || e.user then some (e.frame * 4096 + va % 4096) else none

/-- The physical address of an access through the buffer. -/
def Paging.access (P : Paging) (c : Buffer Nat PageEntry) (user : Bool) (va : Nat) : Option Nat :=
  (c.access Paging.walk P (va / 4096)).bind fun e => e.address user va

/-- The walk for the page of an address is the translation of the address. -/
theorem walk_translate (P : Paging) (user : Bool) (va : Nat) :
    (P.walk (va / 4096)).bind (fun e => e.address user va) = P.translate user va := by
  have hdir : va / 4096 / 1024 = va / 4194304 := by omega
  unfold Paging.walk Paging.translate Paging.allows
  simp only [hdir]
  generalize P.pageDirectory (va / 4194304) = pde
  by_cases h0 : pde.testBit 0
  · by_cases h7 : pde.testBit 7
    · simp only [h0, h7, ↓reduceIte, Option.bind_some, PageEntry.address, Bool.true_and]
      refine if_congr Iff.rfl (congrArg some ?_) rfl
      omega
    · simp only [h0, h7, ↓reduceIte, Bool.true_and, Bool.false_eq_true]
      cases P.tableAt pde with
      | none => simp
      | some table =>
        simp only [Option.bind_some]
        cases user <;> cases h2 : pde.testBit 2 <;> cases hp : (table (va / 4096 % 1024)).testBit 0 <;>
          cases hu : (table (va / 4096 % 1024)).testBit 2 <;> simp [PageEntry.address]
  · simp [h0]

/-! ## The writes and flushes of each function -/

/-- Writes to the tables, and flushes. -/
abbrev PagingOps := List (Op Paging)

/-- `map_page`. -/
def mapPageOps (physaddr virtualaddr flags : Nat) : PagingOps :=
  if physaddr % 4096 ≠ 0 then []
  else if virtualaddr % 4096 ≠ 0 then []
  else [.write fun P => P.mapPage physaddr virtualaddr flags, .flush]

/-- `map_page` of the frame of process `pid` at `0x08000000`. -/
def mapProcessOps (pid : Int) : PagingOps := mapPageOps (frameAddr pid) 0x08000000 0x87

/-- `map_video_page`. -/
def mapVideoPageOps (terminal : Int) : PagingOps := [.write fun P => P.mapVideoPage terminal, .flush]

/-- A write to `user_video_page_table`. -/
def uvptOp (i entry : Nat) : Op Paging :=
  .write fun P => { P with userVideoPageTable := Function.update P.userVideoPageTable i entry }

namespace Kernel

variable (s : Kernel)

/-- `switch_terminal`: both entries are written before the flush. -/
def switchOps (terminalDest : Int) : PagingOps :=
  if terminalDest = s.visible then []
  else if terminalDest > 3 then []
  else
    [uvptOp s.visible.toNat ((s.terminals s.visible).videoBuffer ||| 7),
      uvptOp terminalDest.toNat (0xB8000 ||| 7), .flush]

/-- The end of a handler maps the window of the scheduled terminal. -/
def windowOps : PagingOps :=
  mapVideoPageOps (if s.curTerminal = s.visible then 0 else 1 + s.curTerminal)

/-- `execute` maps the page of the new process, before the ELF test. -/
def executeOps (fname : Nat → UInt8) (x : ExecIn) : PagingOps :=
  let (error, _, s) := s.readElf fname x.buf (-1)
  if error = -1 then []
  else
    let (pid, _) := s.getPID
    if pid = -1 then [] else mapProcessOps pid

/-- The endless loop of `halt` for a process without a parent. -/
def restartOps (currPcb : Int) : Kernel → List ExecIn → PagingOps
  | _, [] => []
  | s, x :: xs =>
    let s := s.dropped currPcb
    s.executeOps shellName x ++
      match s.execute shellName x with
      | .user _ => []
      | .fail s' => restartOps currPcb s' xs

/-- `halt`. -/
def haltOps (xs : List ExecIn) : PagingOps :=
  if (s.pcbs s.curr).parentPid = -1 then restartOps s.curr s xs
  else mapProcessOps (s.pcbs s.curr).parentPid

/-- The handler of an exception. -/
def exceptionOps (vector : Nat) (xs : List ExecIn) : PagingOps :=
  (s.print (exceptionText vector)).haltOps xs

/-- The end of `pit_handler`. -/
def rescheduleOps : PagingOps := s.windowOps ++ mapProcessOps s.curr

/-- `pit_handler`. -/
def pitOps (esp ebp : UInt32) (x : ExecIn) : PagingOps :=
  let s := s.deschedule esp ebp
  if s.pitCount < 3 then
    s.switchOps s.pitCount ++ s.prepareShell.executeOps shellName x ++
      match s.prepareShell.execute shellName x with
      | .user _ => []
      | .fail s' => s'.rescheduleOps
  else if s.pitCount = 3 then s.switchOps 0 ++ (s.switchTerminal 0).rescheduleOps
  else s.rescheduleOps

/-- The keys other than Up between `beginKey` and `endKey`. -/
def editOps (scanCode : Nat) : PagingOps :=
  if s.flags.ctrl ≠ 0 ∧ scanCode = 0x26 then []
  else if scanCode = 0x0E ∧ s.kbd.currIdx ≠ 0 then []
  else if scanCode = 0x1C then []
  else if isSwitch s.flags scanCode then s.switchOps (scanCode - 0x3B)
  else []

/-- `keyboard_handler`. -/
def keyOps (scanCode : Nat) (st : Stack) : PagingOps :=
  match modifierKey s.flags scanCode with
  | some _ => []
  | none =>
    let s := s.beginKey
    let (ops, r) := if scanCode = 0x48 then ([], s.upKey st) else (s.editOps scanCode, s.editKey scanCode)
    mapVideoPageOps 0 ++ ops ++
      match r with
      | .ret s' => s'.windowOps
      | .fault _ => []

/-- `vid_map`: a store that faults is made between the writes and the flush. -/
def vidmapOps (screenStart : Nat) : PagingOps :=
  if vidmapAccepts screenStart then
    [.write fun P => { P with
        pageDirectory := Function.update P.pageDirectory (138412032 / 4194304)
          (P.userVideoPageTableAddr ||| 7) },
      uvptOp s.curTerminal.toNat (0xB8000 ||| 7)] ++
    match s.vidMap screenStart with
    | .ret _ => [.flush]
    | .fault _ => []
  else []

/-- The writes and flushes of an event. -/
def pagingOps : Event → PagingOps
  | .tick esp ebp x | .tickLaunch esp ebp x => s.pitOps esp ebp x
  | .key scanCode st => s.keyOps scanCode.toNat st
  | .keyFault scanCode st xs => s.keyOps scanCode.toNat st ++
    match s.keyboardHandler scanCode.toNat st with
    | .ret _ => []
    | .fault s' => s'.exceptionOps 14 xs
  | .execUser fname x | .execFail fname x => s.executeOps fname x
  | .halt _ xs => s.haltOps xs
  | .exception vector xs => s.exceptionOps vector xs
  | .vidmap screenStart => s.vidmapOps screenStart
  | .vidmapFault screenStart xs => s.vidmapOps screenStart ++
    match s.sysVidmap screenStart with
    | .ret _ => []
    | .fault s' => s'.exceptionOps 14 xs
  | _ => []

end Kernel

/-! ## Where they lead -/

/-- The operations lead from the tables `P` to `P'`, and leave no write without a flush; `b` says
whether there is one before them. -/
structure Leads (b : Bool) (P : Paging) (ops : PagingOps) (P' : Paging) : Prop where
  table : Tlb.table ops P = P'
  clean : Tlb.dirty b ops = false

section Operations

variable {s : Kernel} {b : Bool} {P P' P'' : Paging} {ops ops' : PagingOps}

theorem Leads.nil (P : Paging) : Leads false P [] P := ⟨rfl, rfl⟩

theorem Leads.append (h : Leads b P ops P') (h' : Leads false P' ops' P'') :
    Leads b P (ops ++ ops') P'' := by
  refine ⟨?_, ?_⟩
  · rw [table_append, h.table, h'.table]
  · rw [dirty_append, h.clean, h'.clean]

theorem leads_mapProcessOps (b : Bool) (P : Paging) (pid : Int) :
    Leads b P (mapProcessOps pid) (P.mapPage (frameAddr pid) 0x08000000 0x87) := by
  have ha : ¬ frameAddr pid % 4096 ≠ 0 := by
    have := frameAddr_aligned pid
    omega
  unfold mapProcessOps mapPageOps
  rw [if_neg ha, if_neg (by decide)]
  exact ⟨rfl, rfl⟩

theorem leads_windowOps (b : Bool) (s : Kernel) : Leads b s.paging s.windowOps s.mapWindow.paging :=
  ⟨rfl, rfl⟩

theorem leads_switchOps (s : Kernel) (d : Int) :
    Leads false s.paging (s.switchOps d) (s.switchTerminal d).paging := by
  unfold Kernel.switchOps Kernel.switchTerminal
  split_ifs
  · exact .nil _
  · exact .nil _
  · exact ⟨rfl, rfl⟩

/-- The operations of `execute`, as in `execute_eq`. -/
theorem executeOps_eq (s : Kernel) (fname : Nat → UInt8) (x : ExecIn) : s.executeOps fname x =
    match s.fs.header fname x.buf, s.freePid with
    | some _, some pid => mapProcessOps pid
    | _, _ => [] := by
  obtain ⟨error, buf', he, hh⟩ := readElf_eq s fname x.buf
  unfold Kernel.executeOps
  simp only [he, hh]
  by_cases h1 : error = -1
  · simp [h1]
  · simp only [h1, ↓reduceIte]
    cases hp : s.freePid with
    | none =>
      rw [getPID_none (s := s.looked fname) hp]
      simp
    | some pid =>
      have hne : pid ≠ -1 := by have := freePid_mem hp; omega
      rw [getPID_some (s := s.looked fname) hp]
      simp only [hne, ↓reduceIte]

theorem leads_executeOps {s' : Kernel} {fname : Nat → UInt8} {x : ExecIn}
    (h : s.execute fname x = .user s' ∨ s.execute fname x = .fail s') :
    Leads false s.paging (s.executeOps fname x) s'.paging := by
  rw [executeOps_eq]
  rw [execute_eq] at h
  cases hb : s.fs.header fname x.buf with
  | none =>
    rw [hb] at h
    rcases h with h | h <;> cases h
    exact .nil _
  | some buf =>
    cases hp : s.freePid with
    | none =>
      rw [hb, hp] at h
      rcases h with h | h <;> cases h
      exact .nil _
    | some pid =>
      rw [hb, hp] at h
      simp only at h
      split at h <;> rcases h with h | h <;> cases h <;> exact leads_mapProcessOps ..

/-- An `execute` that reaches user mode flushes. -/
theorem leads_executeOps_user {s' : Kernel} {fname : Nat → UInt8} {x : ExecIn} (b : Bool)
    (h : s.execute fname x = .user s') : Leads b s.paging (s.executeOps fname x) s'.paging := by
  rw [executeOps_eq]
  rw [execute_eq] at h
  cases hb : s.fs.header fname x.buf with
  | none =>
    rw [hb] at h
    cases h
  | some buf =>
    cases hp : s.freePid with
    | none =>
      rw [hb, hp] at h
      cases h
    | some pid =>
      rw [hb, hp] at h
      simp only at h
      split at h <;> cases h
      exact leads_mapProcessOps ..

/-- The loop of `halt` ends with an `execute` that reaches user mode. -/
theorem leads_restartOps {c : Int} {xs : List ExecIn} {s' : Kernel} (b : Bool)
    (h : Kernel.restart c s xs = some s') :
    Leads b s.paging (Kernel.restartOps c s xs) s'.paging := by
  induction xs generalizing s b with
  | nil => cases h
  | cons x xs ih =>
    have hstart : (s.dropped c).paging = s.paging := rfl
    cases hu : (s.dropped c).execute shellName x with
    | user u =>
      rw [restart_user xs hu] at h
      cases h
      simp only [Kernel.restartOps, hu, List.append_nil]
      exact hstart ▸ leads_executeOps_user b hu
    | fail u =>
      rw [restart_fail xs hu] at h
      have hx := leads_executeOps (.inr hu)
      rw [hstart] at hx
      simp only [Kernel.restartOps, hu]
      refine ⟨?_, ?_⟩
      · rw [table_append, hx.table]
        exact (ih false h).table
      · rw [dirty_append, (ih _ h).clean]

theorem leads_haltOps {st : UInt8} {xs : List ExecIn} {r : HaltResult} (b : Bool)
    (h : s.halt st xs = some r) : Leads b s.paging (s.haltOps xs) r.state.paging := by
  unfold Kernel.halt at h
  unfold Kernel.haltOps
  dsimp only at h
  split at h
  · rename_i hp
    obtain ⟨s', hr, rfl⟩ := Option.map_eq_some_iff.mp h
    rw [if_pos hp]
    exact leads_restartOps b hr
  · rename_i hp
    cases h
    rw [if_neg hp]
    exact leads_mapProcessOps ..

theorem leads_exceptionOps {v : Nat} {xs : List ExecIn} {s' : Kernel} (b : Bool)
    (h : s.exception v xs = some s') : Leads b s.paging (s.exceptionOps v xs) s'.paging := by
  unfold Kernel.exception at h
  split at h
  · obtain ⟨r, hr, rfl⟩ := Option.map_eq_some_iff.mp h
    exact leads_haltOps (s := s.print (exceptionText v)) b hr
  · cases h

theorem leads_rescheduleOps {s' : Kernel} {esp ebp : UInt32} (h : s.reschedule = .resume s' esp ebp) :
    Leads false s.paging s.rescheduleOps s'.paging := by
  simp only [Kernel.reschedule, PitResult.resume.injEq] at h
  obtain ⟨rfl, -⟩ := h
  exact (leads_windowOps false s).append (leads_mapProcessOps ..)

theorem leads_prepareShell (s : Kernel) :
    Leads false s.paging (s.switchOps s.pitCount) s.prepareShell.paging := leads_switchOps ..

theorem leads_deschedule (s : Kernel) (esp ebp : UInt32) :
    (s.deschedule esp ebp).paging = s.paging := rfl

/-- The four ways through `pit_handler`. -/
theorem leads_pitOps {esp ebp : UInt32} {x : ExecIn} {s' : Kernel}
    (h : s.pitHandler esp ebp x = .user s' ∨ ∃ e p, s.pitHandler esp ebp x = .resume s' e p) :
    Leads false s.paging (s.pitOps esp ebp x) s'.paging := by
  have hret : ∀ {u : Kernel}, s.pitHandler esp ebp x = u.reschedule →
      ∃ e p, u.reschedule = .resume s' e p := by
    intro u hu
    rw [hu] at h
    rcases h with h | h
    · cases h
    · exact h
  have hc : (s.deschedule esp ebp).pitCount = s.pitCount := rfl
  unfold Kernel.pitOps
  dsimp only
  rw [hc, ← leads_deschedule s esp ebp]
  rcases Kernel.pitHandler_cases (s := s) esp ebp x with
    ⟨u, h3, he, hu⟩ | ⟨u, h3, he, hu⟩ | ⟨h3, hu⟩ | ⟨h3, hu⟩
  · rw [hu] at h
    obtain rfl : u = s' := by
      rcases h with h | ⟨_, _, h⟩ <;> cases h
      rfl
    rw [if_pos h3, he, List.append_nil]
    exact (leads_prepareShell _).append (leads_executeOps (.inl he))
  · obtain ⟨e, p, hr⟩ := hret hu
    rw [if_pos h3, he]
    exact ((leads_prepareShell _).append (leads_executeOps (.inr he))).append (leads_rescheduleOps hr)
  · obtain ⟨e, p, hr⟩ := hret hu
    rw [if_neg (by omega), if_pos h3]
    have hend : Leads false ((s.deschedule esp ebp).switchTerminal 0).paging
        ((s.deschedule esp ebp).switchTerminal 0).rescheduleOps s'.paging := leads_rescheduleOps
      (s := { (s.deschedule esp ebp).switchTerminal 0 with pitCount := 4 }) hr
    exact (leads_switchOps _ 0).append hend
  · obtain ⟨e, p, hr⟩ := hret hu
    rw [if_neg (by omega), if_neg (by omega)]
    exact leads_rescheduleOps hr

/-! ### Keys -/

theorem paging_upKey (st : Stack) : (s.upKey st).state.paging = s.paging := by
  unfold Kernel.upKey
  dsimp only
  split
  · split <;> rfl
  · rfl

theorem leads_editOps (c : Nat) :
    Leads false s.paging (s.editOps c) (s.editKey c).state.paging := by
  have hback : s.backKey.state.paging = s.paging := by
    unfold Kernel.backKey
    split <;> rfl
  have hchar : (s.charKey c).paging = s.paging := by
    unfold Kernel.charKey
    dsimp only
    split <;> rfl
  unfold Kernel.editOps Kernel.editKey
  split_ifs
  · exact .nil _
  · exact hback ▸ .nil _
  · exact .nil _
  · exact leads_switchOps ..
  · exact hchar ▸ .nil _
  · exact .nil _

theorem leads_keyOps (c : Nat) (st : Stack) :
    Leads false s.paging (s.keyOps c st) (s.keyboardHandler c st).state.paging := by
  unfold Kernel.keyOps Kernel.keyboardHandler
  cases modifierKey s.flags c with
  | some flags => exact .nil _
  | none =>
    have hbegin : Leads false s.paging (mapVideoPageOps 0) s.beginKey.paging := ⟨rfl, rfl⟩
    have hend : ∀ u : Kernel, Leads false u.paging u.windowOps u.endKey.paging := fun u => ⟨rfl, rfl⟩
    dsimp only
    by_cases h48 : c = 0x48
    · simp only [h48, ↓reduceIte]
      have hup := paging_upKey (s := s.beginKey) st
      cases hr : s.beginKey.upKey st with
      | ret u =>
        rw [hr] at hup
        exact (hbegin.append (hup ▸ .nil _)).append (hend u)
      | fault u =>
        rw [hr] at hup
        exact (hbegin.append (hup ▸ .nil _)).append (.nil _)
    · simp only [h48, ↓reduceIte]
      have hedit := leads_editOps (s := s.beginKey) c
      cases hr : s.beginKey.editKey c with
      | ret u =>
        rw [hr] at hedit
        exact (hbegin.append hedit).append (hend u)
      | fault u =>
        rw [hr] at hedit
        exact (hbegin.append hedit).append (.nil _)

/-! ### `vid_map` -/

theorem paging_storeWord {va value : Nat} {s' : Kernel} (h : s.storeWord va value = some s') :
    s'.paging = s.paging := by
  obtain ⟨vram, umem, rfl⟩ := Kernel.storeWord_eq h
  rfl

theorem paging_vidMap {a : Nat} {u : Kernel} (h : (s.vidMap a).state = u) :
    u.paging = s.paging.vidMapEntries s.curTerminal := by
  unfold Kernel.vidMap at h
  dsimp only at h
  split at h
  · rename_i hw
    rw [← h]
    exact paging_storeWord hw
  · rw [← h]
    rfl

/-- The tables are those of the model; there is no flush if the store faults. -/
theorem table_vidmapOps (a : Nat) :
    Tlb.table (s.vidmapOps a) s.paging = (s.sysVidmap a).state.paging ∧
      ∀ s', s.sysVidmap a = .ret s' → Tlb.dirty false (s.vidmapOps a) = false := by
  unfold Kernel.vidmapOps Kernel.sysVidmap
  by_cases ha : Kernel.vidmapAccepts a
  · rw [if_pos ha, if_pos ha]
    cases hr : s.vidMap a with
    | ret u =>
      refine ⟨?_, fun _ _ => rfl⟩
      rw [table_append]
      exact (paging_vidMap (congrArg Outcome.state hr)).symm
    | fault u =>
      refine ⟨?_, fun _ hret => Outcome.noConfusion hret⟩
      rw [List.append_nil]
      exact (paging_vidMap (congrArg Outcome.state hr)).symm
  · rw [if_neg ha, if_neg ha]
    exact ⟨rfl, fun _ _ => rfl⟩

end Operations

/-- The tables are those of the video mappings, with the entry of the program page. -/
theorem paging_eq {s u : Kernel} (hi : u.io.paging = s.io.paging) (hp : u.procs = s.procs) :
    u.paging = s.paging := by
  have hpde : u.paging.pageDirectory 32 = s.paging.pageDirectory 32 := congrArg Procs.userPde hp
  have hfull : ∀ v : Kernel, v.paging = { v.io.paging with
      pageDirectory := Function.update v.io.paging.pageDirectory 32 (v.paging.pageDirectory 32) } := by
    intro v
    have hdir : v.io.paging.pageDirectory = Function.update v.paging.pageDirectory 32 0 := rfl
    rw [hdir, Function.update_idem, Function.update_eq_self]
    rfl
  rw [hfull u, hfull s, hi, hpde]

/-- **What an event writes and flushes** leads to the tables of the model, and leaves no write without
a flush. -/
theorem pagingOps_leads {s s' : Kernel} {e : Event} (h : s.step e = some s') :
    Leads false s.paging (s.pagingOps e) s'.paging := by
  have hsys : ∀ {r : Option Kernel}, s.syscall r = some s' → r = some s' := fun hr =>
    (syscall_eq hr).2
  have hstay : ∀ {u : Kernel}, u.io.paging = s.io.paging → u.procs = s.procs →
      Leads false s.paging [] u.paging := fun hi hp => paging_eq hi hp ▸ .nil _
  cases e with
  | tick esp ebp x =>
    simp only [Kernel.step] at h
    split at h <;> cases h
    rename_i hr
    exact leads_pitOps (.inr ⟨_, _, hr⟩)
  | tickLaunch esp ebp x =>
    simp only [Kernel.step] at h
    split at h <;> cases h
    rename_i hr
    exact leads_pitOps (.inl hr)
  | key c st =>
    have hk := leads_keyOps (s := s) c.toNat st
    simp only [Kernel.step] at h
    split at h <;> cases h
    rename_i hr
    rw [hr] at hk
    exact hk
  | keyFault c st xs =>
    have hk := leads_keyOps (s := s) c.toNat st
    simp only [Kernel.step] at h
    split at h
    · cases h
    · rename_i u hr
      rw [hr] at hk
      simp only [Kernel.pagingOps, hr]
      exact hk.append (leads_exceptionOps _ h)
  | execUser f x =>
    have h := hsys h
    split at h <;> cases h
    rename_i hr
    exact leads_executeOps (.inl hr)
  | execFail f x =>
    have h := hsys h
    split at h <;> cases h
    rename_i hr
    exact leads_executeOps (.inr hr)
  | halt ebx xs =>
    obtain ⟨r, hr, rfl⟩ := Option.map_eq_some_iff.mp (hsys h)
    exact leads_haltOps _ hr
  | exception v xs => exact leads_exceptionOps _ h
  | vidmap a =>
    obtain ⟨ht, hd⟩ := table_vidmapOps (s := s) a
    have h := hsys h
    split at h <;> cases h
    rename_i hr
    rw [hr] at ht
    exact ⟨ht, hd _ hr⟩
  | vidmapFault a xs =>
    obtain ⟨ht, -⟩ := table_vidmapOps (s := s) a
    have h := hsys h
    split at h
    · cases h
    · rename_i u hr
      rw [hr] at ht
      have hx := leads_exceptionOps (Tlb.dirty false (s.vidmapOps a)) h
      simp only [Kernel.pagingOps, hr]
      refine ⟨?_, ?_⟩
      · rw [table_append, ht]
        exact hx.table
      · rw [dirty_append]
        exact hx.clean
  | openFd f =>
    cases hsys h
    exact hstay (congrArg Kernel.paging (io_sysOpen f)) (procs_sysOpen f)
  | closeFd fd =>
    cases hsys h
    exact hstay (congrArg Kernel.paging (io_sysClose fd)) (procs_sysClose fd)
  | read fd buf stack mem n =>
    obtain ⟨r, hr, rfl⟩ := Option.map_eq_some_iff.mp (hsys h)
    refine hstay ?_ (procs_sysRead hr)
    rcases sysRead_io hr with ⟨-, hi⟩ | ⟨-, ret, bytes, hi⟩
    · exact congrArg Kernel.paging hi
    · obtain ⟨-, _, _, -, -, -, -, hi⟩ := terminalRead_eq (io_terminalRead hi)
      rw [hi]
      rfl
  | write fd buf mem n =>
    obtain ⟨r, hr, rfl⟩ := Option.map_eq_some_iff.mp (hsys h)
    refine hstay ?_ (procs_sysWrite hr)
    rcases sysWrite_io hr with ⟨-, hi⟩ | ⟨-, hi⟩
    · exact congrArg Kernel.paging hi
    · rw [hi]
      rfl
  | getargs after mem n =>
    cases hsys h
    exact hstay (congrArg Kernel.paging (io_sysGetargs after mem n)) (procs_sysGetargs after mem n)

/-! ## Every run -/

/-- The moves of the processor during an event: before each operation, and at the end. -/
abbrev Moves := Nat → List (Move Nat)

/-- The kernel on a processor with a buffer. -/
def buffered : Lts (Kernel × Buffer Nat PageEntry) (Event × Moves) :=
  (kernel.restrict Prod.fst).withGhost fun c s e _ =>
    (Tlb.run Paging.walk e.2 (s.pagingOps e.1) (s.paging, c)).2

section Run

variable {s s' s₀ : Kernel} {c c' c₀ : Buffer Nat PageEntry} {e : Event × Moves} {b : BootIn}
  {es es₀ : List (Event × Moves)}

theorem buffered_step (h : buffered.step (s, c) e = some (s', c')) : s.step e.1 = some s' ∧
    c' = (Tlb.run Paging.walk e.2 (s.pagingOps e.1) (s.paging, c)).2 :=
  Lts.withGhost_step.mp h

/-- **Every event leaves the buffer coherent.** -/
theorem coherent_step (h : Coherent Paging.walk s.paging c)
    (hs : buffered.step (s, c) e = some (s', c')) : Coherent Paging.walk s'.paging c' := by
  obtain ⟨hk, rfl⟩ := buffered_step hs
  obtain ⟨htable, hclean⟩ := pagingOps_leads hk
  have hrun : Coherent Paging.walk (Tlb.table (s.pagingOps e.1) s.paging)
      (Tlb.run Paging.walk e.2 (s.pagingOps e.1) (s.paging, c)).2 := coherent_run (fun _ => h) hclean
  rwa [htable] at hrun

theorem coherent_boot (b : BootIn) : Coherent Paging.walk (boot b).paging fun _ => none :=
  coherent_empty

/-- An access through a coherent buffer goes where the tables say. -/
theorem access_of_coherent (h : Coherent Paging.walk s.paging c) (user : Bool) (va : Nat) :
    s.paging.access c user va = s.paging.translate user va := by
  rw [Paging.access, h.access, walk_translate]

/-- Before each operation and at the end the processor copies the entries of the first program page
and of the window. -/
def eagerly (e : Event) : Event × Moves := (e, fun _ => [.load 0x8000, .load 0xB8])

/-- The shell of terminal 2 maps video memory and executes `ls`, and terminal 0 is scheduled. -/
def mapAndRun : List Event :=
  [.vidmap 0x8000000, .execUser (cstr (lit ['l', 's'])) sampleExec, .tick 0 0 sampleExec]

/-- What isolates the user programs, with the copies. -/
structure BufferedIsolated (L : Layout) (mapped : Prop) (p : Kernel × Buffer Nat PageEntry) :
    Prop where
  tables : Isolated L mapped p.1
  copies : Coherent Paging.walk p.1.paging p.2

theorem BufferedIsolated.step {L : Layout} (h : BufferedIsolated L True (s, c))
    (hs : buffered.step (s, c) e = some (s', c')) : BufferedIsolated L True (s', c') := by
  obtain ⟨hk, -⟩ := buffered_step hs
  exact ⟨⟨rooted_step h.tables.rooted hk, vid_wf_step h.tables.vid hk,
    userOk_step h.tables.vid h.tables.user (fun _ => trivial) hk⟩, coherent_step h.copies hs⟩

end Run

end Mp3
