import Mathlib.Data.List.FinRange
import Mathlib.Tactic.Simps.Basic
import OsLab.Lib.Bytes
import OsLab.Lib.Prog

/-!
# Frames, page tables and swapping

The functions of `kernel/mm/mm.c`, and those of `kernel/sched/sched.c` and `kernel/loader/loader.c` that
set up and give back the memory of a process. Memory is a word `ram kva k` for every page `kva`, a kernel
virtual address, and index `k < 512`; page tables are pages of memory like any other, so an entry `PTE *`
is a page and an index (`Ref`). The card is reached by the operations of `Op`. A list of `PageNode`s is a
`List`, from the head on; a node is in use exactly while it is linked in one of the three lists.

The kernel is not preempted, and a page fault, a system call or an access of a program to its memory is
one step (`act`). Which task runs next is left open: any task that has not exited may act.

`stop` stands for a call that does not come back as C defines it: a failed assertion, a null pointer
followed, a signed overflow, an index outside an array, a loop that does not end. It also stands for a
write below an entry of the top-level directory that is the kernel's own: these entries map large pages,
and the source takes what they map for page tables, so that the write would hit the kernel itself.
-/

namespace OsLab.Mm

open Lib

/-! ### Constants -/

/-- `NUM_MAX_TASK`. -/
def NUM_MAX_TASK : ℕ := 16
/-- `PAGE_SIZE`. -/
def PAGE_SIZE : UInt64 := 4096
/-- `PAGE_SIZE / SECTOR_SIZE`. -/
def PAGE_SECTORS : UInt64 := 8
/-- `NUM_PTE_ENTRY`. -/
def NUM_PTE_ENTRY : ℕ := 512
/-- `INIT_KERNEL_STACK`. -/
def INIT_KERNEL_STACK : UInt64 := 0xffffffc052000000
/-- `FREE_KERNEL_PAGE_NUM`. -/
def FREE_KERNEL_PAGE_NUM : ℕ := 0x2000
/-- `USER_MEM_BASE`. -/
def USER_MEM_BASE : UInt64 := 0xffffffc054000000
/-- `FREE_USER_PAGE_NUM`. -/
def FREE_USER_PAGE_NUM : ℕ := 0x9000
/-- `USER_STACK_ADDR`. -/
def USER_STACK_ADDR : UInt64 := 0xf00010000
/-- `USER_STACK_END`. -/
def USER_STACK_END : UInt64 := USER_STACK_ADDR - 5 * PAGE_SIZE
/-- `PGDIR_VA`. -/
def PGDIR_VA : UInt64 := 0xffffffc051000000
/-- `PageNode_MAXNUM`. -/
def PageNode_MAXNUM : ℕ := 0x40000
/-- `SHM_PAGE_NUM`. -/
def SHM_PAGE_NUM : ℕ := 16
/-- `VA_MASK`. -/
def VA_MASK : UInt64 := 0x7fffffffff
/-- `_PAGE_PRESENT`. -/
def PAGE_PRESENT : UInt64 := 1
/-- `_PAGE_READ`. -/
def PAGE_READ : UInt64 := 2
/-- `_PAGE_WRITE`. -/
def PAGE_WRITE : UInt64 := 4
/-- `_PAGE_EXEC`. -/
def PAGE_EXEC : UInt64 := 8
/-- `_PAGE_USER`. -/
def PAGE_USER : UInt64 := 16
/-- `_PAGE_ACCESSED`. -/
def PAGE_ACCESSED : UInt64 := 64
/-- `_PAGE_DIRTY`. -/
def PAGE_DIRTY : UInt64 := 128
/-- The attributes of a page that a process may use. -/
def PAGE_MAPPED : UInt64 := PAGE_PRESENT ||| PAGE_READ ||| PAGE_WRITE ||| PAGE_EXEC ||| PAGE_USER ||| PAGE_DIRTY

/-- `ROUND(a, PAGE_SIZE)`. -/
def ROUND (a : UInt64) : UInt64 := (a + PAGE_SIZE - 1) &&& ~~~(PAGE_SIZE - 1)

/-- `ROUNDDOWN(a, PAGE_SIZE)`, and `a & ~(PAGE_SIZE - 1)`. -/
def ROUNDDOWN (a : UInt64) : UInt64 := a &&& ~~~(PAGE_SIZE - 1)

/-- `NPAGES2BITMAPCH(npages)`. -/
def NPAGES2BITMAPCH (npages : ℕ) : ℕ := npages / 8 + if npages % 8 ≠ 0 then 1 else 0

/-- `NBYTES2PAGE(nbytes)`. -/
def NBYTES2PAGE (nbytes : ℕ) : ℕ := nbytes / 4096 + if nbytes % 4096 ≠ 0 then 1 else 0

/-! ### Page table entries -/

/-- `kva2pa(kva)`. -/
def kva2pa (kva : UInt64) : UInt64 := kva - 0xffffffc000000000

/-- `pa2kva(pa)`. -/
def pa2kva (pa : UInt64) : UInt64 := pa + 0xffffffc000000000

/-- `pfn_mask`. -/
def pfn_mask : UInt64 := ((1 : UInt64) <<< 44) - 1

/-- `get_pfn(entry)`. -/
def get_pfn (entry : UInt64) : UInt64 := entry >>> 10 &&& pfn_mask

/-- `get_pa(entry)`. -/
def get_pa (entry : UInt64) : UInt64 := get_pfn entry <<< 12

/-- `set_pfn(&entry, pfn)`. -/
def set_pfn (entry pfn : UInt64) : UInt64 := (entry &&& ~~~(pfn_mask <<< 10)) ||| (pfn <<< 10)

/-- `get_attribute(entry, mask)`. -/
def get_attribute (entry mask : UInt64) : UInt64 := entry &&& mask

/-- `set_attribute(&entry, bits)`. -/
def set_attribute (entry bits : UInt64) : UInt64 := entry ||| bits

/-- `clear_attribute(&entry, bits)`. -/
def clear_attribute (entry bits : UInt64) : UInt64 := entry &&& ~~~bits

/-- The entry for the frame `kva`, over the entry that was there. -/
def mapEntry (entry kva bits : UInt64) : UInt64 := set_attribute (set_pfn entry (kva2pa kva >>> 12)) bits

/-- The page that an entry leads to. -/
def target (entry : UInt64) : UInt64 := pa2kva (get_pa entry)

/-- `vpn2` of `va`. -/
def vpn2 (va : UInt64) : UInt64 := (va &&& VA_MASK) >>> 30

/-- `vpn1` of `va`. -/
def vpn1 (va : UInt64) : UInt64 := (vpn2 va <<< 9) ^^^ ((va &&& VA_MASK) >>> 21)

/-- `vpn0` of `va`. -/
def vpn0 (va : UInt64) : UInt64 := ((va &&& VA_MASK) >>> 12) ^^^ (vpn2 va <<< 18) ^^^ (vpn1 va <<< 9)

/-- Where a word of memory is: also `PTE *`. -/
structure Ref where
  page : UInt64
  idx : ℕ
  deriving DecidableEq

/-- Memory, word by word. -/
abbrev Ram := UInt64 → ℕ → UInt64

/-- `*r`. -/
def Ram.load (ram : Ram) (r : Ref) : UInt64 := ram r.page r.idx

/-- `*r = v`. -/
def Ram.store (ram : Ram) (r : Ref) (v : UInt64) : Ram := fun p k => if p = r.page ∧ k = r.idx then v else ram p k

/-- Assign the first `n` words of a page. -/
def Ram.fill (ram : Ram) (page : UInt64) (n : ℕ) (words : ℕ → UInt64) : Ram := fun p k =>
  if p = page ∧ k < n then words k else ram p k

/-- `uva2pte(uva, pgdir)`. -/
def uva2pte (ram : Ram) (uva pgdir : UInt64) : Option Ref :=
  if ram pgdir (vpn2 uva).toNat = 0 then none
  else
    let lv2_pgdir := target (ram pgdir (vpn2 uva).toNat)
    if ram lv2_pgdir (vpn1 uva).toNat = 0 then none
    else some ⟨target (ram lv2_pgdir (vpn1 uva).toNat), (vpn0 uva).toNat⟩

/-- `kva2pte(kva, pgdir)`, where `current` is `current_running->pgdir`. -/
def kva2pte (ram : Ram) (kva current : UInt64) : Option Ref :=
  if ram current (vpn2 kva).toNat = 0 then none
  else some ⟨target (ram current (vpn2 kva).toNat), (vpn1 kva).toNat⟩

/-! ### Variables -/

/-- An index of `pcb`. -/
abbrev Slot := Fin NUM_MAX_TASK

instance : NeZero NUM_MAX_TASK := ⟨by decide⟩

/-- An index of `shm_pages`. -/
abbrev Shm := Fin SHM_PAGE_NUM

/-- `PageNode_t`, without its links and status. -/
structure PageNode where
  pte_entry : Option Ref
  pid : Int32
  /-- `addr.kva` in the memory lists, `addr.sector_id` in the list of pages on the card. -/
  addr : UInt64
  uva : UInt64
  deriving DecidableEq

/-- `pcb_t`: the fields that the functions below read. -/
structure Pcb where
  pid : Int32
  /-- `status == TASK_EXITED`. -/
  exited : Bool
  kernel_stack_base : UInt64
  user_stack_base : UInt64
  pgdir : UInt64
  pthread_id : Int32
  brk : UInt64

/-- `shm_page_t`. -/
structure ShmPage where
  key : Int32
  /-- `status == SHM_USING`. -/
  isUsing : Bool
  kva : UInt64
  user_num : ℤ

/-- `task_info_t`: the fields that the loader reads. -/
structure TaskInfo where
  entrypoint : UInt64
  sector_num : UInt32
  firstsector : UInt32
  offset : UInt32
  memsize : UInt32

/-- What the history of a run records. -/
inductive Note where
  /-- `alloc_kernel_page` or `alloc_user_page` returns `kva`; `held` says whether a node in
  `kernel_page_head` or `user_page_mem_head` has it then, `isShared` whether it is in `shm_pages`. -/
  | handed (kva : UInt64) (held isShared : Bool)
  /-- `alloc_kernel_page` finds no free page in the kernel's pool. -/
  | fallback
  /-- `swap_page_out` takes the frame `kva` away; `isShared` says whether it is in `shm_pages` then. -/
  | evicted (kva : UInt64) (isShared : Bool)
  /-- `do_sbrk` grants `increment` bytes from `start` on to a task of process `pid`. -/
  | granted (pid : Int32) (start increment : UInt64)
  deriving DecidableEq

/-- A process has got the shared page `shm` at the address `uva`. -/
structure Mapping where
  pid : Int32
  uva : UInt64
  shm : Shm
  deriving DecidableEq

/-- The variables of the memory manager. -/
structure Memory where
  ram : Ram
  kernel_bitmap : ℕ → UInt8
  user_bitmap : ℕ → UInt8
  kernel_page_head : List PageNode
  user_page_mem_head : List PageNode
  user_page_sd_head : List PageNode
  sd_sector_end : UInt64
  pcb : Slot → Pcb
  process_id : Int32
  tasks : List TaskInfo
  shm_pages : Shm → ShmPage
  userMemCurr : UInt64
  /-- The shared pages that processes have got by key and neither detached nor given up by their end; not
  a variable of the source. -/
  attached : List Mapping
  /-- The history of the run, the newest entry last. -/
  log : List Note

/-- What is asked of the card. -/
inductive Op where
  /-- `sd_read` of some sectors into memory. -/
  | sd_read (num_of_blocks : ℕ) (block_id : UInt32)
  /-- `sd_write` of the eight sectors of a page. -/
  | sd_write (block_id : UInt32) (page : ℕ → UInt64)

/-- What is answered: the words that were read. -/
@[reducible] def Op.Res : Op → Type
  | .sd_read .. => ℕ → UInt64
  | .sd_write .. => Unit

/-- Programs of the memory manager. -/
abbrev MmM := ProgM Memory Op Op.Res

open ProgM

/-! ### Access to variables -/

/-- `assert(c)`. -/
def assert (c : Prop) [Decidable c] : MmM Unit := if c then pure () else stop

/-- `if (c) x;` -/
def ifThen (c : Prop) [Decidable c] (x : MmM Unit) : MmM Unit := if c then x else pure ()

/-- Memory after `f`. -/
@[simps -fullyApplied] def Memory.putRam (s : Memory) (f : Ram → Ram) : Memory := { s with ram := f s.ram }

/-- `pcb[i]` after `f`. -/
@[simps -fullyApplied] def Memory.putPcb (s : Memory) (i : Slot) (f : Pcb → Pcb) : Memory :=
  { s with pcb := Function.update s.pcb i (f (s.pcb i)) }

/-- `shm_pages[i]` after `f`. -/
@[simps -fullyApplied] def Memory.putShm (s : Memory) (i : Shm) (f : ShmPage → ShmPage) : Memory :=
  { s with shm_pages := Function.update s.shm_pages i (f (s.shm_pages i)) }

/-- The history with one more entry. -/
@[simps -fullyApplied] def Memory.note (s : Memory) (e : Note) : Memory := { s with log := s.log ++ [e] }

/-- Change memory. -/
def setRam (f : Ram → Ram) : MmM Unit := modify fun s => s.putRam f

/-- Change `pcb[i]`. -/
def setPcb (i : Slot) (f : Pcb → Pcb) : MmM Unit := modify fun s => s.putPcb i f

/-- Change `shm_pages[i]`. -/
def setShm (i : Shm) (f : ShmPage → ShmPage) : MmM Unit := modify fun s => s.putShm i f

/-- Add to the history. -/
def record (e : Note) : MmM Unit := modify fun s => s.note e

/-- `current_running->pgdir`; `none` is the PCB with pid 0. -/
def Memory.pgdir (s : Memory) : Option Slot → UInt64
  | some i => (s.pcb i).pgdir
  | none => PGDIR_VA

/-- A node of the two memory lists has the frame `kva`. -/
def Memory.held (s : Memory) (kva : UInt64) : Bool := (s.kernel_page_head ++ s.user_page_mem_head).any (·.addr == kva)

/-- The frame `kva` is in `shm_pages`. -/
def Memory.isShared (s : Memory) (kva : UInt64) : Bool :=
  (List.finRange SHM_PAGE_NUM).any fun i => (s.shm_pages i).isUsing && (s.shm_pages i).kva == kva

/-! ### Bitmaps -/

/-- `find_free_pages(bitmap, page_num)`; `none` is -1. -/
def find_free_pages (bitmap : ℕ → UInt8) (page_num : ℕ) : Option ℕ := scan bitmap (NPAGES2BITMAPCH page_num) page_num

/-- `mark_page_allocated(page_idx, bitmap)`. -/
def mark_page_allocated (page_idx : ℕ) (bitmap : ℕ → UInt8) : ℕ → UInt8 := setBit bitmap page_idx

/-- `unmark_page_free(page_idx, bitmap)`. -/
def unmark_page_free (page_idx : UInt64) (bitmap : ℕ → UInt8) : ℕ → UInt8 := clearBit bitmap page_idx.toNat

/-! ### Swapping out -/

/-- The loop of `swap_page_out` over `user_page_mem_head`, for at most `fuel` rounds: memory, the page
that is chosen and the list without it. -/
def secondChance : ℕ → Ram → List PageNode → Option (Ram × PageNode × List PageNode)
  | 0, _, _ => none
  | _ + 1, _, [] => none
  | fuel + 1, ram, p :: ps =>
    match p.pte_entry with
    | none => none
    | some r =>
      if get_attribute (ram.load r) (PAGE_ACCESSED ||| PAGE_DIRTY) ≠ 0 then
        secondChance fuel (ram.store r (clear_attribute (ram.load r) (PAGE_ACCESSED ||| PAGE_DIRTY))) (ps ++ [p])
      else some (ram, p, ps)

/-- `swap_page_out()`. -/
def swap_page_out : MmM UInt64 := do
  let s ← get
  match secondChance (s.user_page_mem_head.length + 1) s.ram s.user_page_mem_head with
  | none => stop
  | some (ram, p, ps) =>
    match p.pte_entry with
    | none => stop
    | some r => do
      modify fun s => { s with
        ram := ram.store r (clear_attribute (ram.load r) PAGE_PRESENT)
        user_page_mem_head := ps }
      assert (p.uva ≠ 0)
      let s ← get
      perform (Op.sd_write s.sd_sector_end.toUInt32 (s.ram p.addr))
      modify fun s => { s with
        user_page_sd_head := s.user_page_sd_head ++ [{ p with addr := s.sd_sector_end }]
        sd_sector_end := s.sd_sector_end + PAGE_SECTORS }
      record (.evicted p.addr (s.isShared p.addr))
      pure p.addr

/-! ### Allocating pages -/

/-- `kva` is handed out. -/
def handOut (kva : UInt64) : MmM UInt64 := do
  let s ← get
  record (.handed kva (s.held kva) (s.isShared kva))
  pure kva

/-- `alloc_kernel_page()`. -/
def alloc_kernel_page : MmM UInt64 := do
  let s ← get
  match find_free_pages s.kernel_bitmap FREE_KERNEL_PAGE_NUM with
  | none => do
    record .fallback
    let kva ← swap_page_out
    handOut kva
  | some page_idx => do
    modify fun s => { s with kernel_bitmap := mark_page_allocated page_idx s.kernel_bitmap }
    handOut (INIT_KERNEL_STACK + PAGE_SIZE * UInt64.ofNat page_idx)

/-- `alloc_user_page()`. -/
def alloc_user_page : MmM UInt64 := do
  let s ← get
  match find_free_pages s.user_bitmap FREE_USER_PAGE_NUM with
  | none => do
    let kva ← swap_page_out
    handOut kva
  | some page_idx => do
    modify fun s => { s with user_bitmap := mark_page_allocated page_idx s.user_bitmap }
    handOut (USER_MEM_BASE + PAGE_SIZE * UInt64.ofNat page_idx)

/-- `create_PageNode(kva, uva, pgdir, &pcb[i])` while `c` is running. -/
def create_PageNode (kva uva pgdir : UInt64) (i : Slot) (c : Option Slot) : MmM Unit := do
  assert (uva ≠ 0)
  let s ← get
  -- otherwise `get_free_PageNode` returns -1
  assert (s.kernel_page_head.length + s.user_page_mem_head.length + s.user_page_sd_head.length < PageNode_MAXNUM)
  if uva = kva then
    modify fun s =>
      { s with kernel_page_head := s.kernel_page_head ++
        [⟨kva2pte s.ram kva (s.pgdir c), (s.pcb i).pid, kva, uva⟩] }
  else
    modify fun s =>
      { s with user_page_mem_head := s.user_page_mem_head ++
        [⟨uva2pte s.ram uva pgdir, (s.pcb i).pid, kva, uva⟩] }

/-- A new page of page tables for the empty entry `r`. -/
def newTable (r : Ref) (i : Slot) (c : Option Slot) : MmM Unit := do
  let kva ← alloc_kernel_page
  create_PageNode kva kva PGDIR_VA i c
  setRam fun ram => ram.store r (mapEntry (ram.load r) kva PAGE_PRESENT)
  setRam fun ram => ram.fill kva NUM_PTE_ENTRY fun _ => 0

/-- The first half of `alloc_page_helper` and `umap_page`: the page of the first-level table for `va`. -/
def pageTables (va pgdir : UInt64) (i : Slot) (c : Option Slot) : MmM UInt64 := do
  let s ← get
  assert (s.ram PGDIR_VA (vpn2 va).toNat = 0)
  ifThen (s.ram pgdir (vpn2 va).toNat = 0) (newTable ⟨pgdir, (vpn2 va).toNat⟩ i c)
  let s ← get
  let lv2_pgdir := target (s.ram pgdir (vpn2 va).toNat)
  ifThen (s.ram lv2_pgdir (vpn1 va).toNat = 0) (newTable ⟨lv2_pgdir, (vpn1 va).toNat⟩ i c)
  let s ← get
  pure (target (s.ram lv2_pgdir (vpn1 va).toNat))

/-- The second half of `alloc_page_helper` and `umap_page`: `kva` becomes the page of `va`. -/
def mapPage (va kva lv1_pgdir : UInt64) (i : Slot) (c : Option Slot) : MmM Unit := do
  let s ← get
  create_PageNode kva (va &&& VA_MASK) (s.pcb i).pgdir i c
  let r : Ref := ⟨lv1_pgdir, (vpn0 va).toNat⟩
  setRam fun ram => ram.store r (mapEntry (ram.load r) kva PAGE_MAPPED)

/-- `alloc_page_helper(va, pgdir, &pcb[i])`. -/
def alloc_page_helper (va pgdir : UInt64) (i : Slot) (c : Option Slot) : MmM UInt64 := do
  let lv1_pgdir ← pageTables va pgdir i c
  let kva ← alloc_user_page
  mapPage va kva lv1_pgdir i c
  pure kva

/-- `umap_page(va, pa, pgdir, &pcb[i])`. -/
def umap_page (va pa pgdir : UInt64) (i : Slot) (c : Option Slot) : MmM Unit := do
  let lv1_pgdir ← pageTables va pgdir i c
  mapPage va (pa2kva pa) lv1_pgdir i c

/-! ### Giving pages back -/

/-- The frame of a node is free again. A bitmap goes on behind its end here: an index there clears a bit of
what lies behind the array. -/
def recycleFrame (p : PageNode) (s : Memory) : Memory :=
  if p.uva ≠ p.addr then
    { s with user_bitmap := unmark_page_free ((p.addr - USER_MEM_BASE) / PAGE_SIZE) s.user_bitmap }
  else { s with kernel_bitmap := unmark_page_free ((p.addr - INIT_KERNEL_STACK) / PAGE_SIZE) s.kernel_bitmap }

/-- `recycle_node_from_list(pcb, head, is_in_mem)`: the nodes that stay, and the variables. -/
def recycle_node_from_list (pid : Int32) (is_in_mem : Bool) : List PageNode → Memory → List PageNode × Memory
  | [], s => ([], s)
  | p :: ps, s =>
    if p.pid = pid then recycle_node_from_list pid is_in_mem ps (if is_in_mem then recycleFrame p s else s)
    else
      let r := recycle_node_from_list pid is_in_mem ps s
      (p :: r.1, r.2)

/-- `release_process_page(&pcb[i])`, as a change of the variables. -/
def releasePages (pid : Int32) (s : Memory) : Memory :=
  let r := recycle_node_from_list pid true s.kernel_page_head s
  let s := { r.2 with kernel_page_head := r.1 }
  let r := recycle_node_from_list pid true s.user_page_mem_head s
  let s := { r.2 with user_page_mem_head := r.1 }
  let r := recycle_node_from_list pid false s.user_page_sd_head s
  { r.2 with user_page_sd_head := r.1 }

/-- `release_process_page(&pcb[i])`. -/
def release_process_page (i : Slot) : MmM Unit := modify fun s => releasePages (s.pcb i).pid s

/-- What `do_exit` and `do_kill` do to the memory of `pcb[i]`. -/
def endTask (i : Slot) : MmM Unit := do
  let s ← get
  ifThen ((s.pcb i).pthread_id = 0) do
    release_process_page i
    modify fun s => { s with attached := s.attached.filter (·.pid ≠ (s.pcb i).pid) }
  setPcb i fun p => { p with exited := true }

/-- `do_exit()`. -/
def do_exit (c : Slot) : MmM Unit := endTask c

/-- `pid_to_pcb_id(pid)`. -/
def pid_to_pcb_id (pcb : Slot → Pcb) (pid : Int32) : Option Slot :=
  (List.finRange NUM_MAX_TASK).find? fun i => (pcb i).pid = pid ∧ (pcb i).exited = false

/-- The loop of `do_kill(pid)`, for at most `fuel` rounds. -/
def killLoop (c : Slot) (pid : Int32) : ℕ → MmM Unit
  | 0 => stop
  | fuel + 1 => do
    let s ← get
    match pid_to_pcb_id s.pcb pid with
    | none => pure ()
    | some i =>
      if i = c then do_exit c
      else do
        endTask i
        killLoop c pid fuel

/-- `do_kill(pid)`. -/
def do_kill (c : Slot) (pid : Int32) : MmM Unit := killLoop c pid (NUM_MAX_TASK + 1)

/-! ### Swapping in -/

/-- `search_list_node(head, uva, master_pcb)`. -/
def search_list_node (nodes : List PageNode) (uva : UInt64) (pid : Int32) : Option PageNode :=
  nodes.find? fun p => p.uva = uva ∧ p.pid = pid

/-- `swap_page_in(p)`. -/
def swap_page_in (p : PageNode) : MmM Unit := do
  assert (p.uva ≠ 0)
  modify fun s => { s with user_page_sd_head := s.user_page_sd_head.erase p }
  let kva ← alloc_user_page
  let words ← perform (Op.sd_read PAGE_SECTORS.toNat p.addr.toUInt32)
  setRam fun ram => ram.fill kva NUM_PTE_ENTRY words
  match p.pte_entry with
  | none => stop
  | some r => do
    setRam fun ram => ram.store r (mapEntry (ram.load r) kva PAGE_MAPPED)
    modify fun s => { s with user_page_mem_head := s.user_page_mem_head ++ [{ p with addr := kva }] }

/-- The loop of `check_uva_mem`, at `vpn`, for at most `fuel` rounds. -/
def checkLoop (last : UInt64) (i : Slot) : ℕ → UInt64 → MmM Unit
  | 0, _ => stop
  | fuel + 1, vpn =>
    if vpn ≤ last then do
      let s ← get
      match search_list_node s.user_page_sd_head vpn (s.pcb i).pid with
      | none => pure ()
      | some p => swap_page_in p
      checkLoop last i fuel (vpn + PAGE_SIZE)
    else pure ()

/-- `check_uva_mem(uva_begin, len, &pcb[i])`. -/
def check_uva_mem (uva_begin len : UInt64) (i : Slot) : MmM Unit :=
  checkLoop (uva_begin + len) i (len.toNat / 4096 + 3) (ROUNDDOWN uva_begin)

/-- `check_uva_mem(uva_begin, len, current_running)`. The PCB with pid 0 has no pages on the card. -/
def checkCurrent (uva_begin len : UInt64) : Option Slot → MmM Unit
  | some c => check_uva_mem uva_begin len c
  | none => pure ()

/-! ### Page faults -/

/-- The accesses that fault: `EXCC_INST_PAGE_FAULT`, `EXCC_LOAD_PAGE_FAULT` and `EXCC_STORE_PAGE_FAULT`. -/
inductive Access where
  | inst
  | load
  | store
  deriving DecidableEq

/-- The attribute that an access needs. -/
def Access.attribute : Access → UInt64
  | .inst => PAGE_EXEC
  | .load => PAGE_READ
  | .store => PAGE_WRITE

/-- The test of `check_mprotect(regs, stval, scause)`: the task is to be ended. -/
def check_mprotect (s : Memory) (stval : UInt64) (scause : Access) (c : Slot) : Bool :=
  match uva2pte s.ram stval (s.pcb c).pgdir with
  | none => false
  | some pte => get_attribute (s.ram.load pte) scause.attribute == 0

/-- The test of `check_brk(vpn)`: the task is to be ended. -/
def check_brk (s : Memory) (vpn : UInt64) (c : Slot) : Bool := (s.pcb c).brk < vpn && vpn < USER_STACK_END

/-- `handle_page_fault(regs, stval, scause)`. -/
def handle_page_fault (stval : UInt64) (scause : Access) (c : Slot) : MmM Unit := do
  assert (stval ≠ 0)
  let vpn := ROUNDDOWN stval
  let s ← get
  if check_mprotect s stval scause c then do_exit c
  else
    match search_list_node s.user_page_mem_head vpn (s.pcb c).pid with
    | some p =>
      match p.pte_entry with
      | none => stop
      | some r => setRam fun ram => ram.store r (set_attribute (ram.load r) (PAGE_ACCESSED ||| PAGE_DIRTY))
    | none =>
      match search_list_node s.user_page_sd_head vpn (s.pcb c).pid with
      | some p => swap_page_in p
      | none =>
        if check_brk s vpn c then do_exit c
        else do
          let _ ← alloc_page_helper vpn (s.pcb c).pgdir c (some c)
          pure ()

/-! ### Shared pages -/

/-- `allocFreeUva(1)`. -/
def allocFreeUva : MmM UInt64 := do
  let s ← get
  modify fun s => { s with userMemCurr := ROUND s.userMemCurr + PAGE_SIZE }
  pure (ROUND s.userMemCurr)

/-- `do uva = allocFreeUva(1); while (uva2pte(uva, current_running->pgdir) != NULL);`, for at most `fuel`
rounds. -/
def uvaLoop (c : Slot) : ℕ → MmM UInt64
  | 0 => stop
  | fuel + 1 => do
    let uva ← allocFreeUva
    let s ← get
    if (uva2pte s.ram uva (s.pcb c).pgdir).isSome then uvaLoop c fuel else pure uva

/-- A page of the address space that no first-level table covers. After all pages have been tried the
loop goes on in the same way for ever. -/
def freeUva (c : Slot) : MmM UInt64 := uvaLoop c (2 ^ 27 + 1)

/-- The slot of `shm_pages` for a key in use. -/
def findKey (s : Memory) (key : Int32) : Option Shm :=
  (List.finRange SHM_PAGE_NUM).find? fun i => (s.shm_pages i).isUsing ∧ (s.shm_pages i).key = key

/-- An unused slot of `shm_pages`. -/
def findUnused (s : Memory) : Option Shm := (List.finRange SHM_PAGE_NUM).find? fun i => (s.shm_pages i).isUsing = false

/-- Task `c` has the shared page `i` at `uva` now. -/
def attach (uva : UInt64) (i : Shm) (c : Slot) : MmM Unit :=
  modify fun s => { s with attached := s.attached ++ [⟨(s.pcb c).pid, uva &&& VA_MASK, i⟩] }

/-- `shm_page_get(key)`. -/
def shm_page_get (key : Int32) (c : Slot) : MmM UInt64 := do
  let s ← get
  match findKey s key with
  | some i => do
    let uva ← freeUva c
    let s ← get
    umap_page uva (kva2pa (s.shm_pages i).kva) (s.pcb c).pgdir c (some c)
    setShm i fun p => { p with user_num := p.user_num + 1 }
    attach uva i c
    pure uva
  | none =>
    match findUnused s with
    -- `shm_pages[16]`
    | none => stop
    | some i => do
      let uva ← freeUva c
      let kva ← alloc_page_helper uva (s.pcb c).pgdir c (some c)
      setShm i fun p => { p with kva := kva, isUsing := true, key := key, user_num := p.user_num + 1 }
      attach uva i c
      pure uva

/-- The first half of `delete_uva_page`: a page in memory. -/
def deleteFromMem (vpn : UInt64) (pid : Int32) (s : Memory) : Memory :=
  match search_list_node s.user_page_mem_head vpn pid with
  | none => s
  | some p => { s with
      user_bitmap := unmark_page_free ((p.addr - USER_MEM_BASE) / PAGE_SIZE) s.user_bitmap
      user_page_mem_head := s.user_page_mem_head.erase p }

/-- The second half of `delete_uva_page`: a page on the card. -/
def deleteFromSd (vpn : UInt64) (pid : Int32) (s : Memory) : Memory :=
  match search_list_node s.user_page_sd_head vpn pid with
  | none => s
  | some p => { s with user_page_sd_head := s.user_page_sd_head.erase p }

/-- `delete_uva_page(vpn, pcb)`. -/
def delete_uva_page (vpn : UInt64) (pid : Int32) (s : Memory) : Memory := deleteFromSd vpn pid (deleteFromMem vpn pid s)

/-- The slot of `shm_pages` for a frame. -/
def findFrame (s : Memory) (kva : UInt64) : Option Shm :=
  (List.finRange SHM_PAGE_NUM).find? fun i => (s.shm_pages i).isUsing ∧ (s.shm_pages i).kva = kva

/-- Give up the shared page `i`, which `pte` maps at `uva`. -/
def detach (uva : UInt64) (pte : Ref) (i : Shm) (c : Slot) : MmM Unit := do
  let s ← get
  assert (s.ram PGDIR_VA (vpn2 uva).toNat = 0)
  modify (delete_uva_page (ROUNDDOWN uva) (s.pcb c).pid)
  modify fun s => { s with attached := s.attached.erase ⟨(s.pcb c).pid, ROUNDDOWN uva, i⟩ }
  setRam fun ram => ram.store pte (clear_attribute (ram.load pte) PAGE_PRESENT)
  setShm i fun p => { p with user_num := p.user_num - 1 }
  ifThen ((s.shm_pages i).user_num - 1 = 0) (setShm i fun p => { p with isUsing := false, key := 0, kva := 0 })

/-- `shm_page_dt(addr)`. -/
def shm_page_dt (addr : UInt64) (c : Slot) : MmM Unit := do
  let s ← get
  match uva2pte s.ram (addr &&& VA_MASK) (s.pcb c).pgdir with
  | none => stop
  | some pte =>
    match findFrame s (target (s.ram.load pte)) with
    | none => pure ()
    | some i => detach (addr &&& VA_MASK) pte i c

/-! ### The heap -/

/-- `do_getbrk(bss_end)`. -/
def do_getbrk (bss_end : UInt64) (c : Slot) : MmM Unit :=
  setPcb c fun p => { p with brk := ROUNDDOWN (bss_end + PAGE_SIZE) }

/-- `do_brk(addr)`: whether it returns 0, and not -1. -/
def do_brk (addr : UInt64) (c : Slot) : MmM Bool := do
  let s ← get
  if (s.pcb c).brk < ROUNDDOWN addr ∧ ROUNDDOWN addr < USER_STACK_END then do
    setPcb c fun p => { p with brk := addr }
    pure true
  else pure false

/-- `do_sbrk(increment)`; `none` is -1. -/
def do_sbrk (increment : UInt64) (c : Slot) : MmM (Option UInt64) := do
  let increment := ROUND increment
  let s ← get
  if (s.pcb c).brk + increment < USER_STACK_END then do
    setPcb c fun p => { p with brk := p.brk + increment }
    record (.granted (s.pcb c).pid (s.pcb c).brk increment)
    pure (some (s.pcb c).brk)
  else pure none

/-! ### Processes and threads -/

/-- `get_free_pcb()`. -/
def get_free_pcb (pcb : Slot → Pcb) : Option Slot := (List.finRange NUM_MAX_TASK).find? fun i => (pcb i).exited

/-- The page and the index of a word of a mapped page, as the hardware translates them, with the attributes
that it sets. A process has no pages below the kernel's entries of its directory. -/
def translate (ram : Ram) (pgdir va bits : UInt64) : Option (Ref × Ram) :=
  if ram PGDIR_VA (vpn2 va).toNat ≠ 0 then none
  else
    match uva2pte ram va pgdir with
    | none => none
    | some pte =>
      if get_attribute (ram.load pte) PAGE_PRESENT ≠ 0 then
        some (⟨target (ram.load pte), ((va &&& 0xfff) >>> 3).toNat⟩, ram.store pte (set_attribute (ram.load pte) bits))
      else none

/-- The byte of a word that an address names. -/
def byteOf (va v : UInt64) : UInt64 := v >>> ((va &&& 7) <<< 3) &&& 0xff

/-- Assign the byte of a word that an address names. -/
def putByte (va v b : UInt64) : UInt64 :=
  (v &&& ~~~((0xff : UInt64) <<< ((va &&& 7) <<< 3))) ||| (b <<< ((va &&& 7) <<< 3))

/-- `*dest = *src` on user addresses, in the address space of `pgdir`. Where a page is not present, the fault
handler looks at the address space of the running task, and the access faults for ever. -/
def copyByte (dest src pgdir : UInt64) : MmM Unit := do
  let s ← get
  match translate s.ram pgdir src PAGE_ACCESSED with
  | none => stop
  | some (r, ram) =>
    match translate ram pgdir dest (PAGE_ACCESSED ||| PAGE_DIRTY) with
    | none => stop
    | some (w, ram) => setRam fun _ => ram.store w (putByte dest (ram.load w) (byteOf src (ram.load r)))

/-- `my_memcpy(dest, src, len, &pcb[i])`. -/
def my_memcpy (dest src : UInt64) (i : Slot) : ℕ → MmM Unit
  | 0 => pure ()
  | len + 1 => do
    check_uva_mem dest 1 i
    check_uva_mem src 1 i
    let s ← get
    copyByte dest src (s.pcb i).pgdir
    my_memcpy (dest + 1) (src + 1) i len

/-- `bios_sd_read(kva2pa(kva), num_of_blocks, block_id)`; the sectors must fit the page. -/
def readSectors (kva : UInt64) (num_of_blocks block_id : UInt32) : MmM Unit := do
  assert (num_of_blocks ≤ 8)
  let words ← perform (Op.sd_read num_of_blocks.toNat block_id)
  setRam fun ram => ram.fill kva (64 * num_of_blocks.toNat) words

/-- The first loop of `load_task_img`, for `pagenum` more pages. -/
def loadPages (i : Slot) (c : Option Slot) : ℕ → UInt64 → UInt32 → UInt32 → MmM Unit
  | 0, _, _, _ => pure ()
  | pagenum + 1, uva, sector_num, sector_pointer => do
    let s ← get
    let kva ← alloc_page_helper uva (s.pcb i).pgdir i c
    if 4096 ≤ sector_num * 512 then do
      readSectors kva 8 sector_pointer
      loadPages i c pagenum (uva + 0x1000) (sector_num - 8) (sector_pointer + 8)
    else do
      ifThen (0 < sector_num) (readSectors kva sector_num sector_pointer)
      loadPages i c pagenum (uva + 0x1000) 0 sector_pointer

/-- `load_task_img(&pcb[i], task)`. -/
def load_task_img (i : Slot) (task : TaskInfo) (c : Option Slot) : MmM Unit := do
  loadPages i c (NBYTES2PAGE (task.memsize + 512).toNat) task.entrypoint task.sector_num task.firstsector
  my_memcpy task.entrypoint (task.entrypoint + task.offset.toUInt64) i (512 * task.sector_num - task.offset).toNat

/-- `setup_process_pcb(&pcb[i], task)`. -/
def setup_process_pcb (i : Slot) (c : Option Slot) : MmM Unit := do
  let s ← get
  -- signed overflow
  assert (s.process_id < Int32.maxValue)
  modify fun s => { s with process_id := s.process_id + 1 }
  setPcb i fun p => { p with pid := s.process_id + 1 }
  let kva ← alloc_kernel_page
  create_PageNode kva kva PGDIR_VA i c
  setPcb i fun p => { p with kernel_stack_base := kva + PAGE_SIZE, user_stack_base := USER_STACK_ADDR, pthread_id := 0 }

/-- The page directory of a new process: that of the kernel. -/
def setup_pgdir (i : Slot) (c : Option Slot) : MmM Unit := do
  let pgdir ← alloc_kernel_page
  setPcb i fun p => { p with pgdir := pgdir }
  create_PageNode pgdir pgdir PGDIR_VA i c
  setRam fun ram => ram.fill pgdir NUM_PTE_ENTRY fun _ => 0
  setRam fun ram => ram.fill pgdir NUM_PTE_ENTRY (ram PGDIR_VA)

/-- `strcpy` to the page `kva`, at offset `off`. -/
def putString (kva : UInt64) (off : ℕ) : List UInt8 → Ram → Ram
  | [], ram => ram
  | b :: bs, ram =>
    let r : Ref := ⟨kva, off / 8⟩
    putString kva (off + 1) bs (ram.store r (putByte (UInt64.ofNat off) (ram.load r) b.toUInt64))

/-- The loop over the arguments in `setup_process_stack`. The words of `my_argv` start at index `base` of the
page, and the strings are put below `off`. An argument is its address and its characters; they must fit the
page. -/
def putArgs (kva : UInt64) (base : ℕ) (c : Option Slot) : ℕ → List (UInt64 × List UInt8) → MmM Unit
  | _, [] => pure ()
  | off, (argv, str) :: args => do
    checkCurrent argv 64 c
    assert (str.length + 1 ≤ off)
    let off := off - (str.length + 1)
    setRam fun ram => ram.store ⟨kva, base⟩ (USER_STACK_ADDR - PAGE_SIZE + UInt64.ofNat off)
    setRam (putString kva off (str ++ [0]))
    putArgs kva (base + 1) c off args

/-- `setup_process_stack(&pcb[i], argc, argv)`. The register frames on the kernel stack are left out. -/
def setup_process_stack (i : Slot) (argv : UInt64) (args : List (UInt64 × List UInt8)) (c : Option Slot) :
    MmM Unit := do
  let s ← get
  let kva ← alloc_page_helper (USER_STACK_ADDR - PAGE_SIZE) (s.pcb i).pgdir i c
  assert (args.length < NUM_PTE_ENTRY)
  setRam fun ram => ram.store ⟨kva, NUM_PTE_ENTRY - 1⟩ (UInt64.ofNat args.length)
  checkCurrent argv (UInt64.ofNat (8 * args.length)) c
  let base := NUM_PTE_ENTRY - 1 - args.length
  putArgs kva base c (8 * base) args

/-- `add_readyqueue(&pcb[i])`: the task has not exited. -/
def add_readyqueue (i : Slot) : MmM Unit := setPcb i fun p => { p with exited := false }

/-- `do_exec(name, argc, argv)`, where the task found for `name` is number `taskid`. -/
def do_exec (name : UInt64) (taskid : ℕ) (argv : UInt64) (args : List (UInt64 × List UInt8)) (c : Option Slot) :
    MmM Unit := do
  checkCurrent name 32 c
  let s ← get
  match s.tasks[taskid]? with
  | none => pure ()
  | some task =>
    match get_free_pcb s.pcb with
    | none => pure ()
    | some i => do
      setup_process_pcb i c
      setup_pgdir i c
      load_task_img i task c
      setup_process_stack i argv args c
      add_readyqueue i

/-- `init_pthread_pcb(&pcb[i], thread, start_routine)`. -/
def init_pthread_pcb (i : Slot) (thread : Int32) (c : Slot) : MmM Unit := do
  let s ← get
  setPcb i fun p => { p with pid := (s.pcb c).pid }
  let kva ← alloc_kernel_page
  create_PageNode kva kva PGDIR_VA i (some c)
  -- `PAGE_SIZE * thread` is an `int`
  let shift := 4096 * thread.toInt
  assert (-2 ^ 31 ≤ shift ∧ shift < 2 ^ 31)
  setPcb i fun p => { p with
    kernel_stack_base := kva + PAGE_SIZE
    user_stack_base := (s.pcb c).user_stack_base + UInt64.ofInt shift
    pthread_id := thread
    brk := (s.pcb c).brk }

/-- `setup_pthread_stack(&pcb[i], arg, exit_funt)`. -/
def setup_pthread_stack (i : Slot) (c : Slot) : MmM Unit := do
  let s ← get
  let _ ← alloc_page_helper ((s.pcb i).user_stack_base - PAGE_SIZE) (s.pcb i).pgdir i (some c)
  pure ()

/-- `do_pthread_create(thread, start_routine, arg, exit_funt)`. -/
def do_pthread_create (thread : Int32) (c : Slot) : MmM Unit := do
  let s ← get
  match get_free_pcb s.pcb with
  | none => pure ()
  | some i => do
    init_pthread_pcb i thread c
    setPcb i fun p => { p with pgdir := (s.pcb c).pgdir }
    setup_pthread_stack i c
    add_readyqueue i

/-! ### Steps -/

/-- A program stores the word `v` at the aligned address `va` of a page that is present. -/
def userStore (va v : UInt64) (c : Slot) : MmM Unit := do
  let s ← get
  match translate s.ram (s.pcb c).pgdir va (PAGE_ACCESSED ||| PAGE_DIRTY) with
  | none => stop
  | some (r, ram) => setRam fun _ => ram.store r v

/-- What a task may do. -/
inductive Call where
  | exec (name : UInt64) (taskid : ℕ) (argv : UInt64) (args : List (UInt64 × List UInt8))
  | pthread_create (thread : Int32)
  | exit
  | kill (pid : Int32)
  | fault (stval : UInt64) (scause : Access)
  | shm_page_get (key : Int32)
  | shm_page_dt (addr : UInt64)
  | getbrk (bss_end : UInt64)
  | brk (addr : UInt64)
  | sbrk (increment : UInt64)
  | store (va v : UInt64)
  deriving DecidableEq

/-- One step of the running task. The PCB with pid 0 only executes the first program. -/
def act : Option Slot → Call → MmM Unit
  | c, .exec name taskid argv args => do_exec name taskid argv args c
  | none, _ => stop
  | some c, .pthread_create thread => do_pthread_create thread c
  | some c, .exit => do_exit c
  | some c, .kill pid => do_kill c pid
  | some c, .fault stval scause => handle_page_fault stval scause c
  | some c, .shm_page_get key => do let _ ← shm_page_get key c
  | some c, .shm_page_dt addr => shm_page_dt addr c
  | some c, .getbrk bss_end => do_getbrk bss_end c
  | some c, .brk addr => do let _ ← do_brk addr c
  | some c, .sbrk increment => do let _ ← do_sbrk increment c
  | some c, .store va v => userStore va v c

/-- A task that may act. -/
def Memory.live (s : Memory) : Option Slot → Prop
  | some c => (s.pcb c).exited = false
  | none => True

/-- A step that was made: from which state, by whom and what. -/
structure Step where
  before : Memory
  task : Option Slot
  call : Call

/-- The steps and the last state of a run from `start` over the card `h`. -/
inductive Run {σ : Type} (h : Handler Op Op.Res σ) (start : Conf Memory σ → Prop) :
    List Step → Conf Memory σ → Prop where
  | init {c : Conf Memory σ} : start c → Run h start [] c
  | step {steps : List Step} {c c' : Conf Memory σ} {t : Option Slot} {call : Call} :
    Run h start steps c → c.mem.live t →
    exec h (act t call) c = some ((), c') → Run h start (steps ++ [⟨c.mem, t, call⟩]) c'

end OsLab.Mm
