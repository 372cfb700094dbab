import Mp3Os.Types

/-!
# Paging (`paging.c`)

The three tables and the four functions that write them. `translate` is the walk of the
processor over them: a directory entry with the size bit maps 4 MB, any other one names a page
table; an access is possible when the entry is present, and in user mode when the user bit is
set at both levels.

The addresses of the tables are the linker's. `Layout` has what the `aligned` attribute of the
declarations promises about them.
-/

namespace Mp3

/-- The addresses of `page_table` and `user_video_page_table`. -/
structure Layout where
  pageTable : Nat
  userVideoPageTable : Nat
  pageTable_aligned : pageTable % 4096 = 0
  userVideoPageTable_aligned : userVideoPageTable % 4096 = 0
  ne : pageTable ≠ userVideoPageTable

namespace Paging

/-- `init_paging`. `user_video_page_table` is a static array, zero at boot. -/
def initPaging (L : Layout) : Paging where
  pageTableAddr := L.pageTable
  userVideoPageTableAddr := L.userVideoPageTable
  pageDirectory := fun i =>
    if i = 0 then L.pageTable ||| 3 else if i = 1 then 4194304 ||| 0x83 else 2
  pageTable := fun i =>
    let e := (i * 4096) ||| 2
    if i = 0xB8 then e ||| 3
    else if i = 0xB8 + 1 then e ||| 7
    else if i = 0xB8 + 2 then e ||| 7
    else if i = 0xB8 + 3 then e ||| 7
    else e
  userVideoPageTable := fun _ => 0

/-- `map_page`. -/
def mapPage (P : Paging) (physaddr virtualaddr flags : Nat) : Paging :=
  if physaddr % 4096 ≠ 0 then P
  else if virtualaddr % 4096 ≠ 0 then P
  else if P.pageDirectory (virtualaddr / 4194304) ≠ 0 then
    { P with pageDirectory :=
        Function.update P.pageDirectory (virtualaddr / 4194304) (physaddr ||| flags) }
  else
    { P with pageDirectory :=
        Function.update P.pageDirectory (virtualaddr / 4194304) (physaddr ||| 0x87) }

/-- `map_video_page`: the window at `VIDEO_MEM` shows the page `terminal` pages after it. -/
def mapVideoPage (P : Paging) (terminal : Int) : Paging :=
  { P with pageTable :=
      Function.update P.pageTable 0xB8 ((0xB8 + (terminal % 256).toNat) * 4096 ||| 3) }

/-- The two paging writes of `vid_map`. -/
def vidMapEntries (P : Paging) (curTerminal : Int) : Paging :=
  { P with
    pageDirectory := Function.update P.pageDirectory (138412032 / 4194304)
      (P.userVideoPageTableAddr ||| 7)
    userVideoPageTable := Function.update P.userVideoPageTable curTerminal.toNat (0xB8000 ||| 7) }

/-- The frame that the window at `VIDEO_MEM` shows. Its entry is present from `init_paging` on
(`map_video_page` sets the bit again), so an access to the window never faults. -/
def videoFrame (P : Paging) : Nat := P.pageTable 0xB8 / 4096

/-- The entry allows the access: present, and for an access of a user program the user bit. -/
def allows (user : Bool) (entry : Nat) : Bool := entry.testBit 0 && (!user || entry.testBit 2)

/-- The page table at the address that a directory entry holds. -/
def tableAt (P : Paging) (pde : Nat) : Option (Nat → Nat) :=
  if pde / 4096 * 4096 = P.pageTableAddr then some P.pageTable
  else if pde / 4096 * 4096 = P.userVideoPageTableAddr then some P.userVideoPageTable
  else none

/-- The physical address of `va`, for a user program or for the kernel. -/
def translate (P : Paging) (user : Bool) (va : Nat) : Option Nat :=
  let pde := P.pageDirectory (va / 4194304)
  if allows user pde then
    if pde.testBit 7 then some (pde / 4194304 * 4194304 + va % 4194304)
    else
      (P.tableAt pde).bind fun table =>
        let pte := table (va / 4096 % 1024)
        if allows user pte then some (pte / 4096 * 4096 + va % 4096) else none
  else none

/-! ## What the writes leave alone -/

section Lemmas

variable (P : Paging)

@[simp] theorem mapPage_pageTable (a v f : Nat) : (P.mapPage a v f).pageTable = P.pageTable := by
  unfold mapPage; split_ifs <;> rfl

@[simp] theorem mapPage_userVideoPageTable (a v f : Nat) :
    (P.mapPage a v f).userVideoPageTable = P.userVideoPageTable := by
  unfold mapPage; split_ifs <;> rfl

@[simp] theorem mapPage_pageTableAddr (a v f : Nat) :
    (P.mapPage a v f).pageTableAddr = P.pageTableAddr := by
  unfold mapPage; split_ifs <;> rfl

@[simp] theorem mapPage_userVideoPageTableAddr (a v f : Nat) :
    (P.mapPage a v f).userVideoPageTableAddr = P.userVideoPageTableAddr := by
  unfold mapPage; split_ifs <;> rfl

theorem mapVideoPage_videoFrame {t : Int} (h0 : 0 ≤ t) (h3 : t ≤ 3) :
    (P.mapVideoPage t).videoFrame = 0xB8 + t.toNat := by
  unfold videoFrame mapVideoPage
  simp only [Function.update_self]
  rcases (by omega : t = 0 ∨ t = 1 ∨ t = 2 ∨ t = 3) with rfl | rfl | rfl | rfl <;> decide

end Lemmas

end Paging

end Mp3
