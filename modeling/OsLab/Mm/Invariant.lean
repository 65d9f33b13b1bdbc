import OsLab.Mm.Effects
import OsLab.Mm.Entries

/-!
# The invariant of the memory manager

Which frame belongs to whom is nowhere written down in one place: it follows from the lists of nodes, the
bitmaps, the page tables and the table of shared pages together. The invariant has four parts.

* `Frames`: the frames of the nodes in memory are marked in the bitmap of their pool, and two nodes have the
  same frame only if it is shared. Frames that have been taken but not yet put into a node are listed aside.
* `Tables`: a page of the kernel's list is a stack, a directory or a table (`Role`), and the entries of
  directories and tables lead to pages of the list with the right role. A present entry of a first-level table
  leads to the frame of a node for that entry.
* `Pids`: no node is of a process that is yet to come.
* `Sharing`: `user_num` counts the processes that have a shared page, each of which has a node and a present
  entry for it.

It holds as long as no shared page is swapped out (`Kept`).
-/

namespace OsLab.Mm

open Lib ProgM

/-! ### Frames -/

/-- The frame is marked in the bitmap of its pool. -/
def Marked (s : Memory) (kva : UInt64) : Prop :=
  (∃ n < FREE_KERNEL_PAGE_NUM, kva = kernelFrame n ∧ bit s.kernel_bitmap n = true) ∨
    ∃ n < FREE_USER_PAGE_NUM, kva = userFrame n ∧ bit s.user_bitmap n = true

/-- A frame of the kernel's pool. -/
def IsKernelFrame (kva : UInt64) : Prop := ∃ n < FREE_KERNEL_PAGE_NUM, kva = kernelFrame n

/-- A frame of the user pool. -/
def IsUserFrame (kva : UInt64) : Prop := ∃ n < FREE_USER_PAGE_NUM, kva = userFrame n

/-- The frames of nodes, and the frames `L` that have been taken for a node to come. -/
structure Frames (L : List UInt64) (s : Memory) : Prop where
  marked : ∀ p ∈ s.kernel_page_head ++ s.user_page_mem_head, Marked s p.addr
  taken : ∀ f ∈ L, Marked s f
  kernel : (s.kernel_page_head.map (·.addr) ++ L).Nodup
  apart : ∀ p ∈ s.user_page_mem_head, p.addr ∉ s.kernel_page_head.map (·.addr) ++ L
  user : ∀ p ∈ s.user_page_mem_head, IsUserFrame p.addr
  distinct : s.user_page_mem_head.Pairwise fun p q => p.addr = q.addr → s.isShared p.addr = true
  /-- How `release_process_page` tells the pools apart. -/
  kernel_uva : ∀ p ∈ s.kernel_page_head, p.uva = p.addr
  user_uva : ∀ p ∈ s.user_page_mem_head ++ s.user_page_sd_head, p.uva.toNat < 2 ^ 39
  pool : .fallback ∉ s.log → ∀ p ∈ s.kernel_page_head, IsKernelFrame p.addr
  fresh : ∀ kva held isShared, .handed kva held isShared ∈ s.log → held = false ∧ isShared = false

/-! ### Page tables -/

/-- What a page in the kernel's list is used for. -/
inductive Role where
  | stack
  /-- A page directory. -/
  | dir
  /-- A second-level table, for the entry `v2` of the directory. -/
  | mid (v2 : ℕ)
  /-- A first-level table. -/
  | leaf (v2 v1 : ℕ)
  deriving DecidableEq

/-- The roles of pages. -/
abbrev Roles := UInt64 → Role

variable (ρ : Roles)

/-- A page of process `pid` with a role. -/
def Has (s : Memory) (pid : Int32) (role : Role) (kva : UInt64) : Prop :=
  ρ kva = role ∧ ∃ n ∈ s.kernel_page_head, n.addr = kva ∧ n.pid = pid

/-- An entry is empty or leads to a page of the process with a role. -/
def Child (s : Memory) (pid : Int32) (role : Role) (e : UInt64) : Prop := e = 0 ∨ Has ρ s pid role (target e)

/-- The entry of a user page is where the tables of its process lead for its address. -/
def Entry (s : Memory) (p : PageNode) : Prop := ∃ d r, Has ρ s p.pid .dir d ∧ s.ram PGDIR_VA (vpn2 p.uva).toNat = 0 ∧
  uva2pte s.ram p.uva d = some r ∧ p.pte_entry = some r

/-- The page tables of all processes. -/
structure Tables (s : Memory) : Prop where
  dir : ∀ pid d, Has ρ s pid .dir d → ∀ v < 512, s.ram PGDIR_VA v = 0 → Child ρ s pid (.mid v) (s.ram d v)
  mid : ∀ pid v2 d, Has ρ s pid (.mid v2) d → ∀ v < 512, Child ρ s pid (.leaf v2 v) (s.ram d v)
  leaf : ∀ pid v2 v1 d, Has ρ s pid (.leaf v2 v1) d → ∀ v < 512, Present (s.ram d v) →
    ∃ p ∈ s.user_page_mem_head, p.pid = pid ∧ p.pte_entry = some ⟨d, v⟩ ∧ p.addr = target (s.ram d v)
  entry : ∀ p ∈ s.user_page_mem_head ++ s.user_page_sd_head, Entry ρ s p
  /-- A process has one directory. -/
  unique : ∀ pid d d', Has ρ s pid .dir d → Has ρ s pid .dir d' → d = d'

/-! ### Processes and shared pages -/

/-- No node is of a process to come. -/
def Pids (s : Memory) : Prop :=
  ∀ p ∈ s.kernel_page_head ++ s.user_page_mem_head ++ s.user_page_sd_head, p.pid ≤ s.process_id

/-- The shared pages. -/
structure Sharing (s : Memory) : Prop where
  count : ∀ i, (s.shm_pages i).isUsing = true →
    (s.shm_pages i).user_num = s.attached.countP (·.shm = i) ∧ 0 < (s.shm_pages i).user_num
  unused : ∀ i, (s.shm_pages i).isUsing = false → (s.shm_pages i).user_num = 0
  inj : ∀ i j, (s.shm_pages i).isUsing = true → (s.shm_pages j).isUsing = true →
    (s.shm_pages i).kva = (s.shm_pages j).kva → i = j
  attached : ∀ a ∈ s.attached, (s.shm_pages a.shm).isUsing = true ∧ ∃ p ∈ s.user_page_mem_head,
    p.pid = a.pid ∧ p.uva = a.uva ∧
    p.addr = (s.shm_pages a.shm).kva ∧
    ∃ r, p.pte_entry = some r ∧ Present (s.ram.load r) ∧ target (s.ram.load r) = p.addr
  node : ∀ p ∈ s.user_page_mem_head, ∀ i, (s.shm_pages i).isUsing = true → p.addr = (s.shm_pages i).kva →
    ⟨p.pid, p.uva, i⟩ ∈ s.attached
  nodup : s.attached.Nodup
  sole : s.user_page_mem_head.Pairwise fun p q =>
    s.isShared p.addr = true ∨ s.isShared q.addr = true → p.pte_entry ≠ q.pte_entry
  soleSd : ∀ p ∈ s.user_page_mem_head, s.isShared p.addr = true → ∀ q ∈ s.user_page_sd_head, q.pte_entry ≠ p.pte_entry
  page : ∀ a ∈ s.attached, ROUNDDOWN a.uva = a.uva ∧ a.uva &&& VA_MASK = a.uva

/-- The invariant. -/
structure Inv (L : List UInt64) (s : Memory) : Prop where
  frames : Frames L s
  tables : Tables ρ s
  pids : Pids s
  sharing : Sharing s

/-- No shared page has been swapped out. -/
def Kept (s : Memory) : Prop := ∀ kva, .evicted kva true ∉ s.log

/-! ### What later steps can rely on -/

/-- The pages of the kernel's list stay, with their roles, and so does what the tables lead to. -/
structure Ext (s : Memory) (ρ' : Roles) (s' : Memory) : Prop where
  has : ∀ pid role kva, Has ρ s pid role kva → Has ρ' s' pid role kva
  walk : ∀ pid d va r, Has ρ s pid .dir d → s.ram PGDIR_VA (vpn2 va).toNat = 0 → uva2pte s.ram va d = some r →
    uva2pte s'.ram va d = some r
  kernel_dir : s'.ram PGDIR_VA = s.ram PGDIR_VA

/-- The kernel's list is the same, and memory changes only in first-level tables. -/
def Steady (s s' : Memory) : Prop := s'.kernel_page_head = s.kernel_page_head ∧
  ∀ kva, (∀ pid v2 v1, ¬ Has ρ s pid (.leaf v2 v1) kva) → s'.ram kva = s.ram kva

variable {ρ} {ρ' ρ'' : Roles} {s s' s'' : Memory} {L : List UInt64}

theorem Ext.refl (ρ : Roles) (s : Memory) : Ext ρ s ρ s := ⟨fun _ _ _ h => h, fun _ _ _ _ _ _ h => h, rfl⟩

theorem Ext.trans (h₁ : Ext ρ s ρ' s') (h₂ : Ext ρ' s' ρ'' s'') : Ext ρ s ρ'' s'' := by
  refine ⟨fun pid role kva h => h₂.has _ _ _ (h₁.has _ _ _ h),
    fun pid d va r hd hk hw => ?_, h₂.kernel_dir.trans h₁.kernel_dir⟩
  refine h₂.walk pid d va r (h₁.has _ _ _ hd) ?_ (h₁.walk pid d va r hd hk hw)
  rw [h₁.kernel_dir]
  exact hk

theorem Has.congr {pid : Int32} {role : Role} {kva : UInt64}
    (h : Has ρ s pid role kva) (hk : s'.kernel_page_head = s.kernel_page_head) :
    Has ρ s' pid role kva := by
  rw [Has, hk]
  exact h

theorem Steady.trans (h₁ : Steady ρ s s') (h₂ : Steady ρ s' s'') : Steady ρ s s'' := by
  refine ⟨h₂.1.trans h₁.1, fun kva hn => (h₂.2 kva fun pid v2 v1 hh => ?_).trans (h₁.2 kva hn)⟩
  exact hn pid v2 v1 (hh.congr h₁.1.symm)

theorem Entry.ext {p : PageNode} (h : Entry ρ s p) (hx : Ext ρ s ρ' s') : Entry ρ' s' p := by
  obtain ⟨d, r, hd, hk, hw, hp⟩ := h
  exact ⟨d, r, hx.has _ _ _ hd, by rw [hx.kernel_dir]; exact hk, hx.walk _ d _ r hd hk hw, hp⟩

theorem Kept.of_subset (h : Kept s') (hl : s.log ⊆ s'.log) : Kept s := fun kva hm => h kva (hl hm)

/-! ### Facts about frames and roles -/

theorem IsUserFrame.isFrame {kva : UInt64} (h : IsUserFrame kva) : IsFrame kva := by
  obtain ⟨n, hn, rfl⟩ := h
  exact isFrame_userFrame hn

theorem Marked.isFrame {kva : UInt64} (h : Marked s kva) : IsFrame kva := by
  obtain ⟨n, hn, rfl, -⟩ | ⟨n, hn, rfl, -⟩ := h
  · exact isFrame_kernelFrame hn
  · exact isFrame_userFrame hn

theorem Marked.mono {kva : UInt64} (h : Marked s kva)
    (hk : ∀ n, bit s.kernel_bitmap n = true → bit s'.kernel_bitmap n = true)
    (hu : ∀ n, bit s.user_bitmap n = true → bit s'.user_bitmap n = true) : Marked s' kva := by
  obtain ⟨n, hn, rfl, hb⟩ | ⟨n, hn, rfl, hb⟩ := h
  · exact Or.inl ⟨n, hn, rfl, hk n hb⟩
  · exact Or.inr ⟨n, hn, rfl, hu n hb⟩

variable {pid : Int32} {role : Role} {kva d va : UInt64} {r : Ref} {p : PageNode}

theorem Has.mem (h : Has ρ s pid role kva) : kva ∈ s.kernel_page_head.map (·.addr) := by
  obtain ⟨-, n, hn, rfl, -⟩ := h
  exact List.mem_map_of_mem hn

theorem Frames.isFrame_of_has (h : Frames L s) (hh : Has ρ s pid role kva) : IsFrame kva := by
  obtain ⟨-, n, hn, rfl, -⟩ := hh
  exact (h.marked n (List.mem_append_left _ hn)).isFrame

/-- A page belongs to one process. -/
theorem Frames.has_unique (h : Frames L s) {pid' : Int32} {role' : Role}
    (h1 : Has ρ s pid role kva) (h2 : Has ρ s pid' role' kva) :
    pid = pid' ∧ role = role' := by
  obtain ⟨hr, n, hn, hna, rfl⟩ := h1
  obtain ⟨hr', m, hm, hma, rfl⟩ := h2
  have hnm : n = m := List.inj_on_of_nodup_map (List.nodup_append.mp h.kernel).1 hn hm (hna.trans hma.symm)
  exact ⟨by rw [hnm], hr.symm.trans hr'⟩

theorem Frames.has_ne_taken (h : Frames L s) (hh : Has ρ s pid role kva) {f : UInt64} (hf : f ∈ L) : kva ≠ f := by
  rintro rfl
  exact (List.nodup_append.mp h.kernel).2.2 _ hh.mem _ hf rfl

theorem Has.ne_role {role' : Role} {kva' : UInt64} (h : Has ρ s pid role kva)
    (h' : ρ kva' = role') (hne : role ≠ role') : kva ≠ kva' := by
  rintro rfl
  exact hne (h.1.symm.trans h')

/-- What a walk through the tables meets. -/
theorem Tables.walk (h : Tables ρ s) (hd : Has ρ s pid .dir d) (hk : s.ram PGDIR_VA (vpn2 va).toNat = 0)
    (hw : uva2pte s.ram va d = some r) : s.ram d (vpn2 va).toNat ≠ 0 ∧
    Has ρ s pid (.mid (vpn2 va).toNat) (target (s.ram d (vpn2 va).toNat)) ∧
      s.ram (target (s.ram d (vpn2 va).toNat)) (vpn1 va).toNat ≠ 0 ∧
      r.page = target (s.ram (target (s.ram d (vpn2 va).toNat)) (vpn1 va).toNat) ∧ r.idx = (vpn0 va).toNat ∧
      Has ρ s pid (.leaf (vpn2 va).toNat (vpn1 va).toNat) r.page := by
  unfold uva2pte at hw
  split at hw
  · cases hw
  · next h2 =>
    simp only at hw
    split at hw
    · cases hw
    · next h1 =>
      obtain rfl := Option.some.inj hw
      have hmid := (h.dir pid d hd _ (vpn2_lt va) hk).resolve_left h2
      have hleaf := (h.mid pid _ _ hmid _ (vpn1_lt va)).resolve_left h1
      exact ⟨h2, hmid, h1, rfl, rfl, hleaf⟩

/-- A walk depends on two words of memory. -/
theorem uva2pte_congr {ram ram' : Ram} (h2 : ram' d (vpn2 va).toNat = ram d (vpn2 va).toNat)
    (h1 : ram' (target (ram d (vpn2 va).toNat))
      (vpn1 va).toNat = ram (target (ram d (vpn2 va).toNat)) (vpn1 va).toNat) :
    uva2pte ram' va d = uva2pte ram va d := by
  simp only [uva2pte, h2, h1]

theorem uva2pte_eq_some {ram : Ram} (h2 : ram d (vpn2 va).toNat ≠ 0)
    (h1 : ram (target (ram d (vpn2 va).toNat)) (vpn1 va).toNat ≠ 0) :
    uva2pte ram va d = some ⟨target (ram (target (ram d (vpn2 va).toNat)) (vpn1 va).toNat), (vpn0 va).toNat⟩ := by
  simp only [uva2pte, if_neg h2, if_neg h1]

/-- The entry of a user page is in a first-level table of its process. -/
theorem Tables.entry_has (h : Tables ρ s) (he : Entry ρ s p) : ∃ r, p.pte_entry = some r ∧ r.idx = (vpn0 p.uva).toNat ∧
    Has ρ s p.pid (.leaf (vpn2 p.uva).toNat (vpn1 p.uva).toNat) r.page := by
  obtain ⟨d, r, hd, hk, hw, hp⟩ := he
  obtain ⟨-, -, -, -, hidx, hleaf⟩ := h.walk hd hk hw
  exact ⟨r, hp, hidx, hleaf⟩

end OsLab.Mm
