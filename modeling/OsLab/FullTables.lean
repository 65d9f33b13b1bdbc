import OsLab.Fs.Model
import OsLab.Mm.Break
import OsLab.Sched.Runs

/-!
# Full tables

The kernel's tables have fixed sizes, and each of eight calls looks for a free entry of one of them. Six of
the calls test whether the search has found one. `shm_page_get` does not, and goes on with the index 16 of
`shm_pages`; `create_PageNode` goes on with the index -1 of `pn_list`. In the models of the calls an access
outside a table is `stop`.
-/

namespace OsLab

open Lib ProgM

/-- The tables. -/
inductive Table where
  | pcb
  | mlocks
  | barrier
  | condition
  | mailbox
  | fdesc_array
  | shm_pages
  | pn_list
  deriving DecidableEq

/-- The calls that need an entry, each with the state in which it is made and what answers the operations. -/
inductive Attempt : Type 1 where
  | do_exec {σ : Type} (H : Handler Sched.Op Sched.Op.Res σ)
      (c : Conf Sched.Kernel σ) (h : Sched.Hart) (name : Sched.Name)
  | do_mutex_lock_init {σ : Type} (H : Handler Sched.Op Sched.Op.Res σ)
      (c : Conf Sched.Kernel σ) (i : Sched.Slot) (key : ℤ)
  | do_barrier_init {σ : Type} (H : Handler Sched.Op Sched.Op.Res σ)
      (c : Conf Sched.Kernel σ) (i : Sched.Slot) (key goal : ℤ)
  | do_condition_init {σ : Type} (H : Handler Sched.Op Sched.Op.Res σ)
      (c : Conf Sched.Kernel σ) (i : Sched.Slot) (key : ℤ)
  | do_mbox_open {σ : Type} (H : Handler Sched.Op Sched.Op.Res σ)
      (c : Conf Sched.Kernel σ) (i : Sched.Slot) (name : Sched.Name)
  | do_open {σ : Type} (H : Handler Io Io.Res σ) (c : Conf Mem σ) (path : CString) (mode : ℤ)
  | shm_page_get {σ : Type} (H : Handler Mm.Op Mm.Op.Res σ) (c : Conf Mm.Memory σ) (key : Int32) (t : Mm.Slot)
  /-- `active i` says that `pn_list[i].status` is `PN_ACTIVE`. -/
  | create_PageNode {σ : Type} (H : Handler Mm.Op Mm.Op.Res σ)
      (c : Conf Mm.Memory σ) (active : Fin Mm.PageNode_MAXNUM → Bool)
      (kva uva pgdir : UInt64) (i : Mm.Slot) (t : Option Mm.Slot)

namespace Attempt

/-- The table that the call needs an entry of. -/
def table : Attempt → Table
  | do_exec .. => .pcb
  | do_mutex_lock_init .. => .mlocks
  | do_barrier_init .. => .barrier
  | do_condition_init .. => .condition
  | do_mbox_open .. => .mailbox
  | do_open .. => .fdesc_array
  | shm_page_get .. => .shm_pages
  | create_PageNode .. => .pn_list

/-- All entries of the table are in use, and the call needs a new one. A path is one that the file system
can look up. -/
def Full : Attempt → Prop
  | do_exec _ c _ _ => ∀ j, (c.mem.pcb j).status ≠ .TASK_EXITED
  | do_mutex_lock_init _ c _ key => c.mem.last_lockid = Sched.LOCK_NUM ∧ ∀ k, (c.mem.mlocks k).key ≠ key
  | do_barrier_init _ c _ _ _ => ∀ k, (c.mem.barrier k).active = true
  | do_condition_init _ c _ _ => ∀ k, (c.mem.condition k).active = true
  | do_mbox_open _ c _ name => ∀ k, (c.mem.mailbox k).active = true ∧ (c.mem.mailbox k).name ≠ name
  | do_open H c path _ => (∀ k, (c.mem.fdesc_array k).valid ≠ 0) ∧ ∃ p c', exec H (Fs.findFromWd path) c = some (p, c')
  | shm_page_get _ c key _ => ∀ k, (c.mem.shm_pages k).isUsing = true ∧ (c.mem.shm_pages k).key ≠ key
  | create_PageNode _ c active _ _ _ _ _ => (∀ k, active k = true) ∧
      c.mem.kernel_page_head.length + c.mem.user_page_mem_head.length + c.mem.user_page_sd_head.length =
      Mm.PageNode_MAXNUM

end Attempt

/-- The index at which the second search of `shm_page_get` ends. -/
def shmIndex (s : Mm.Memory) : ℕ := (List.finRange Mm.SHM_PAGE_NUM).findIdx fun i => (s.shm_pages i).isUsing = false

/-- `for (i = 0; i < n; i++) if (p(i)) return i; return -1;` -/
def searchLoop {n : ℕ} (p : Fin n → Bool) : ℤ :=
  match (List.finRange n).find? p with
  | some i => i
  | none => -1

/-- `get_free_PageNode()`. -/
def get_free_PageNode (active : Fin Mm.PageNode_MAXNUM → Bool) : ℤ := searchLoop fun i => !active i

namespace Attempt

/-- The call comes back from all its accesses to the table, reports failure if it has a way to, and leaves
the table alone. -/
def Clean : Attempt → Prop
  | do_exec H c h name => exec H (Sched.do_exec h name) c = some (-1, c)
  | do_mutex_lock_init H c i key => ∃ c', exec H (Sched.do_mutex_lock_init i key) c = some ((), c') ∧ c'.mem.a0 i = -1 ∧
      c'.mem.mlocks = c.mem.mlocks ∧ c'.mem.last_lockid = c.mem.last_lockid
  | do_barrier_init H c i key goal => ∃ c',
      exec H (Sched.do_barrier_init i key goal) c = some ((), c') ∧ c'.mem.a0 i = -1 ∧
      c'.mem.barrier = c.mem.barrier
  | do_condition_init H c i key => ∃ c', exec H (Sched.do_condition_init i key) c = some ((), c') ∧ c'.mem.a0 i = -1 ∧
      c'.mem.condition = c.mem.condition
  | do_mbox_open H c i name => ∃ c', exec H (Sched.do_mbox_open i name) c = some ((), c') ∧ c'.mem.a0 i = -1 ∧
      c'.mem.mailbox = c.mem.mailbox
  | do_open H c path mode => ∃ c',
      exec H (Fs.do_open path mode) c = some (-1, c') ∧ c'.mem.fdesc_array = c.mem.fdesc_array
  | shm_page_get H c key t => shmIndex c.mem < Mm.SHM_PAGE_NUM ∧
      ∃ uva c', exec H (Mm.shm_page_get key t) c = some (uva, c') ∧ c'.mem.shm_pages = c.mem.shm_pages
  | create_PageNode H c active kva uva pgdir i t => 0 ≤ get_free_PageNode active ∧
      ∃ c', exec H (Mm.create_PageNode kva uva pgdir i t) c =
      some ((), c') ∧ c'.mem.kernel_page_head = c.mem.kernel_page_head ∧
        c'.mem.user_page_mem_head = c.mem.user_page_mem_head

end Attempt

/-! ### The searches -/

section Search

variable {n : ℕ} {p : Fin n → Bool}

theorem find_full (h : ∀ k, p k = false) : (List.finRange n).find? p = none :=
  List.find?_eq_none.mpr fun k _ => by rw [h k]; exact Bool.false_ne_true

theorem shmIndex_full {s : Mm.Memory} (h : ∀ k, (s.shm_pages k).isUsing = true) : shmIndex s = Mm.SHM_PAGE_NUM := by
  rw [shmIndex, List.findIdx_eq_length.mpr, List.length_finRange]
  intro k _
  rw [h k]
  rfl

theorem get_free_PageNode_full {active : Fin Mm.PageNode_MAXNUM → Bool} (h : ∀ k, active k = true) :
    get_free_PageNode active = -1 := by
  have hnone : ∀ k, (!active k) = false := fun k => by rw [h k]; rfl
  rw [get_free_PageNode, searchLoop, find_full hnone]

end Search

/-! ### The calls that test the search -/

section Calls

variable {σ : Type} {H : Handler Sched.Op Sched.Op.Res σ} {c : Conf Sched.Kernel σ} {i : Sched.Slot}

theorem do_exec_full (h : Sched.Hart) (name : Sched.Name) (hf : ∀ j, (c.mem.pcb j).status ≠ .TASK_EXITED) :
    exec H (Sched.do_exec h name) c = some (-1, c) := by
  have hnone : Sched.get_free_pcb c.mem.pcb = none := find_full fun j => decide_eq_false (hf j)
  rw [Sched.do_exec, exec_bind, exec_get, Option.bind_some]
  dsimp only
  split
  · rfl
  · rw [hnone]
    rfl

theorem do_mutex_lock_init_full (key : ℤ) (hl : c.mem.last_lockid = Sched.LOCK_NUM)
    (hk : ∀ k, (c.mem.mlocks k).key ≠ key) :
    ∃ c', exec H (Sched.do_mutex_lock_init i key) c = some ((), c') ∧ c'.mem.a0 i = -1 ∧ c'.mem.mlocks = c.mem.mlocks ∧
      c'.mem.last_lockid = c.mem.last_lockid := by
  have hnone : (List.finRange Sched.LOCK_NUM).find?
      (fun k => k.1 < c.mem.last_lockid ∧ (c.mem.mlocks k).key = key) = none :=
    find_full fun k => decide_eq_false fun h => hk k h.2
  rw [Sched.do_mutex_lock_init, exec_bind, exec_get, Option.bind_some]
  dsimp only
  rw [hnone]
  dsimp only
  rw [dif_neg (by rw [hl]; exact Nat.lt_irrefl _)]
  exact ⟨_, rfl, Function.update_self .., rfl, rfl⟩

theorem do_barrier_init_full (key goal : ℤ) (hf : ∀ k, (c.mem.barrier k).active = true) :
    ∃ c', exec H (Sched.do_barrier_init i key goal) c =
    some ((), c') ∧ c'.mem.a0 i = -1 ∧ c'.mem.barrier = c.mem.barrier := by
  have hnone : (List.finRange Sched.LOCK_NUM).find? (fun k => !(c.mem.barrier k).active) = none :=
    find_full fun k => by rw [hf k]; rfl
  rw [Sched.do_barrier_init, exec_bind, exec_get, Option.bind_some]
  dsimp only
  rw [hnone]
  exact ⟨_, rfl, Function.update_self .., rfl⟩

theorem do_condition_init_full (key : ℤ) (hf : ∀ k, (c.mem.condition k).active = true) :
    ∃ c', exec H (Sched.do_condition_init i key) c =
    some ((), c') ∧ c'.mem.a0 i = -1 ∧ c'.mem.condition = c.mem.condition := by
  have hnone : (List.finRange Sched.LOCK_NUM).find? (fun k => !(c.mem.condition k).active) = none :=
    find_full fun k => by rw [hf k]; rfl
  rw [Sched.do_condition_init, exec_bind, exec_get, Option.bind_some]
  dsimp only
  rw [hnone]
  exact ⟨_, rfl, Function.update_self .., rfl⟩

theorem do_mbox_open_full (name : Sched.Name)
    (hf : ∀ k, (c.mem.mailbox k).active = true ∧ (c.mem.mailbox k).name ≠ name) :
    ∃ c', exec H (Sched.do_mbox_open i name) c = some ((), c') ∧ c'.mem.a0 i = -1 ∧ c'.mem.mailbox = c.mem.mailbox := by
  have hname : (List.finRange Sched.LOCK_NUM).find?
      (fun k => (c.mem.mailbox k).active ∧ (c.mem.mailbox k).name = name) = none :=
    find_full fun k => decide_eq_false fun h => (hf k).2 h.2
  have hnone : (List.finRange Sched.LOCK_NUM).find? (fun k => !(c.mem.mailbox k).active) = none :=
    find_full fun k => by rw [(hf k).1]; rfl
  rw [Sched.do_mbox_open, exec_bind, exec_get, Option.bind_some]
  dsimp only
  rw [hname]
  dsimp only
  rw [hnone]
  exact ⟨_, rfl, Function.update_self .., rfl⟩

end Calls

/-- The file descriptors stay. -/
def SameFds (m m' : Mem) : Prop := m'.fdesc_array = m.fdesc_array

instance : Std.Refl SameFds := ⟨fun _ => rfl⟩

instance : IsTrans Mem SameFds := ⟨fun _ _ _ h₁ h₂ => h₂.trans h₁⟩

theorem bread_sameFds (b : Buffer) (nsectors sectorid : ℕ) : Keeps SameFds (Fs.bread b nsectors sectorid) :=
  Keeps.read fun _ => (Keeps.perform (Io.bread _ _ _)).bind fun _ => Keeps.modify fun _ => rfl

theorem lookup_sameFds (blk : UInt32) (name : List UInt8) : Keeps SameFds (Fs.lookup blk name) :=
  (bread_sameFds _ _ _).bind fun _ => Keeps.bind (Keeps.read fun _ => Keeps.pure _) fun _ => Keeps.pure _

theorem loadInode_sameFds (ino : UInt32) : Keeps SameFds (Fs.loadInode ino) :=
  (bread_sameFds _ _ _).bind fun _ => Keeps.read fun _ => Keeps.pure _

/-- Looking a path up touches buffers only. -/
theorem findFromWd_sameFds (path : CString) : Keeps SameFds (Fs.findFromWd path) := by
  refine Keeps.bind (Keeps.read fun _ => Keeps.pure _) fun wd => ?_
  rw [Fs.find_inode]
  refine Keeps.ite (Keeps.pure _) ?_
  split
  · exact Keeps.stop
  · refine (lookup_sameFds _ _).bind fun e₁ => ?_
    cases e₁ with
    | none => exact Keeps.pure _
    | some e₁ =>
      refine (loadInode_sameFds _).bind fun I₁ => Keeps.ite (Keeps.pure _) ((lookup_sameFds _ _).bind fun e₂ => ?_)
      cases e₂ with
      | none => exact Keeps.pure _
      | some e₂ =>
        refine (loadInode_sameFds _).bind fun I₂ => Keeps.ite (Keeps.pure _) ((lookup_sameFds _ _).bind fun e₃ => ?_)
        cases e₃ with
        | none => exact Keeps.pure _
        | some e₃ => exact (loadInode_sameFds _).bind fun _ => Keeps.pure _

theorem do_open_full {σ : Type} {H : Handler Io Io.Res σ} {c : Conf Mem σ} (path : CString) (mode : ℤ)
    (hf : ∀ k, (c.mem.fdesc_array k).valid ≠ 0) (hp : ∃ p c', exec H (Fs.findFromWd path) c = some (p, c')) :
    ∃ c', exec H (Fs.do_open path mode) c = some (-1, c') ∧ c'.mem.fdesc_array = c.mem.fdesc_array := by
  obtain ⟨p, c', hx⟩ := hp
  have hsame : c'.mem.fdesc_array = c.mem.fdesc_array := findFromWd_sameFds path c.mem σ H c.dev p c' hx
  refine ⟨c', ?_, hsame⟩
  rw [Fs.do_open, exec_bind, hx, Option.bind_some]
  dsimp only
  cases p with
  | none => rfl
  | some q =>
    -- the pointer is followed, and then the search for a descriptor fails
    have hderef : ∃ I, exec H (Fs.deref q) c' = some (I, c') := by
      cases q with
      | wd => exact ⟨_, rfl⟩
      | buf k => exact ⟨_, rfl⟩
    obtain ⟨I, hI⟩ := hderef
    have hnone : (List.finRange NUM_FDESCS).find? (fun i => (c'.mem.fdesc_array i).valid = 0) = none :=
      find_full fun k => decide_eq_false (by rw [hsame]; exact hf k)
    dsimp only
    rw [exec_bind, hI, Option.bind_some]
    dsimp only
    split
    · rfl
    · have hfds : exec H Fs.fdescs c' = some (c'.mem.fdesc_array, c') := rfl
      rw [exec_bind, hfds, Option.bind_some]
      dsimp only
      rw [hnone]
      rfl

/-! ### The calls that do not -/

theorem shm_page_get_full {σ : Type} {H : Handler Mm.Op Mm.Op.Res σ} {c : Conf Mm.Memory σ} (key : Int32) (t : Mm.Slot)
    (hf : ∀ k, (c.mem.shm_pages k).isUsing = true ∧ (c.mem.shm_pages k).key ≠ key) :
    exec H (Mm.shm_page_get key t) c = none := by
  have hkey : Mm.findKey c.mem key = none := find_full fun k => decide_eq_false fun h => (hf k).2 h.2
  have hnone : Mm.findUnused c.mem = none :=
    find_full fun k => decide_eq_false (by rw [(hf k).1]; exact Bool.noConfusion)
  rw [Mm.shm_page_get, exec_bind, exec_get, Option.bind_some]
  dsimp only
  rw [hkey]
  dsimp only
  rw [hnone]
  rfl

/-- A full table is left alone, and the failure reported, by all calls but two; those two go on with an
index outside the table. -/
theorem full_clean_iff (a : Attempt) (hf : a.Full) : a.Clean ↔ a.table ≠ .shm_pages ∧ a.table ≠ .pn_list := by
  cases a with
  | do_exec H c h name => exact iff_of_true (do_exec_full h name hf) ⟨nofun, nofun⟩
  | do_mutex_lock_init H c i key => exact iff_of_true (do_mutex_lock_init_full key hf.1 hf.2) ⟨nofun, nofun⟩
  | do_barrier_init H c i key goal => exact iff_of_true (do_barrier_init_full key goal hf) ⟨nofun, nofun⟩
  | do_condition_init H c i key => exact iff_of_true (do_condition_init_full key hf) ⟨nofun, nofun⟩
  | do_mbox_open H c i name => exact iff_of_true (do_mbox_open_full name hf) ⟨nofun, nofun⟩
  | do_open H c path mode => exact iff_of_true (do_open_full path mode hf.1 hf.2) ⟨nofun, nofun⟩
  | shm_page_get H c key t =>
    refine iff_of_false ?_ fun h => h.1 rfl
    rintro ⟨-, uva, c', he, -⟩
    rw [shm_page_get_full key t hf] at he
    cases he
  | create_PageNode H c active kva uva pgdir i t =>
    refine iff_of_false (fun h => ?_) fun h => h.2 rfl
    have hidx := h.1
    rw [get_free_PageNode_full hf.1] at hidx
    exact absurd hidx (by decide)

/-- All barriers are active. -/
theorem full_clean_barrier : ∃ c' : Conf Sched.Kernel (Links Sched.Node),
    exec Sched.pointers (Sched.do_barrier_init ⟨0, by decide⟩ 5 2)
    ⟨{ Sched.Machine.start.mem with barrier := fun _ => ⟨0, 2, 0, true⟩ }, Sched.Machine.start.dev⟩ = some ((), c') ∧
      c'.mem.a0 ⟨0, by decide⟩ = -1 := by
  obtain ⟨c', he, ha0, -⟩ := (full_clean_iff (.do_barrier_init Sched.pointers
    ⟨{ Sched.Machine.start.mem with barrier := fun _ => ⟨0, 2, 0, true⟩ }, Sched.Machine.start.dev⟩
    ⟨0, by decide⟩ 5 2) fun _ => rfl).mpr ⟨nofun, nofun⟩
  exact ⟨c', he, ha0⟩

/-- Sixteen shared pages, with the keys from 0 on. -/
def sixteenShared : Mm.Memory := { Mm.oneProcess with shm_pages := fun k => ⟨Int32.ofNat k, true, 0, 1⟩ }

/-- The next key goes to the index 16. -/
theorem full_clean_fails : ¬ ∀ a : Attempt, a.Full → a.Clean := by
  intro h
  have hfull : (Attempt.shm_page_get Mm.idleCard ⟨sixteenShared, ()⟩ 16 0).Full := fun k => ⟨rfl, by revert k; decide⟩
  have hidx : shmIndex sixteenShared < Mm.SHM_PAGE_NUM := (h _ hfull).1
  rw [shmIndex_full fun _ => rfl] at hidx
  exact Nat.lt_irrefl _ hidx

end OsLab
