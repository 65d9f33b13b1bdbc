import OsLab.Mm.Break
import OsLab.Mm.Sv39

/-!
# Mapping device memory

`ioremap` maps the pages of a physical range one after the other, from the cursor `io_base` on, in the page table of
the kernel. The range is rounded to whole pages, and the address of the first page is returned: for a physical
address inside a page it is not the address that was asked for. A page number of more than 44 bits does not fit the
entry, and is not cut.
-/

namespace OsLab.Mm

open Lib ProgM

/-- `IO_ADDR_START`. -/
def IO_ADDR_START : UInt64 := 0xffffffe000000000
/-- `IO_ADDR_END`. -/
def IO_ADDR_END : UInt64 := 0xffffffe400000000

/-- A new page of page tables of the kernel for the empty entry `r`. -/
def newIoTable (r : Ref) : MmM Unit := do
  let kva ← alloc_kernel_page
  setRam fun ram => ram.store r (mapEntry (ram.load r) kva PAGE_PRESENT)
  setRam fun ram => ram.fill kva NUM_PTE_ENTRY fun _ => 0

/-- `iomap_page(va, pa, pgdir)`. -/
def iomap_page (va pa pgdir : UInt64) : MmM Int32 := do
  let s ← get
  ifThen (s.ram pgdir (vpn2 va).toNat = 0) (newIoTable ⟨pgdir, (vpn2 va).toNat⟩)
  let s ← get
  let lv2_pgdir := target (s.ram pgdir (vpn2 va).toNat)
  ifThen (s.ram lv2_pgdir (vpn1 va).toNat = 0) (newIoTable ⟨lv2_pgdir, (vpn1 va).toNat⟩)
  let s ← get
  let r : Ref := ⟨target (s.ram lv2_pgdir (vpn1 va).toNat), (vpn0 va).toNat⟩
  setRam fun ram => ram.store r (set_attribute (set_pfn (ram.load r) (pa >>> 12)) PAGE_MAPPED)
  pure 1

/-- The loop of `ioremap` from `pa` on, for at most `fuel` rounds; `io_base` afterwards. -/
def ioremapLoop (pa_end : UInt64) : ℕ → UInt64 → UInt64 → MmM UInt64
  | 0, _, _ => stop
  | fuel + 1, pa, io_base =>
    if pa < pa_end then do
      let _ ← iomap_page io_base pa PGDIR_VA
      ioremapLoop pa_end fuel (pa + PAGE_SIZE) (io_base + PAGE_SIZE)
    else pure io_base

/-- `ioremap(phys_addr, size)`: what it returns, where 0 is `NULL`, and `io_base` afterwards. -/
def ioremap (phys_addr size io_base : UInt64) : MmM (UInt64 × UInt64) :=
  let pa_start := ROUNDDOWN phys_addr
  let pa_end := ROUND (phys_addr + size)
  let size := pa_end - pa_start
  if io_base + size ≤ IO_ADDR_END then do
    let io_base' ← ioremapLoop pa_end ((size / PAGE_SIZE).toNat + 1) pa_start io_base
    pure (io_base, io_base')
  else pure (0, io_base)

/-! ### Calls -/

/-- A call of `ioremap` that has come back. -/
structure IoCall where
  phys_addr : UInt64
  size : UInt64
  ret : UInt64

/-- The sums of the call do not wrap. -/
structure IoCall.NoWrap (io_base : UInt64) (c : IoCall) : Prop where
  phys : c.phys_addr.toNat + c.size.toNat + 4095 < 2 ^ 64
  io : io_base.toNat + (ROUND (c.phys_addr + c.size) - ROUNDDOWN c.phys_addr).toNat < 2 ^ 64

/-- The call asks for whole pages from an aligned address on, and every page has a page number of 44 bits. -/
structure IoCall.Mappable (c : IoCall) : Prop where
  aligned : c.phys_addr.toNat % 4096 = 0
  bound : c.phys_addr.toNat + c.size.toNat ≤ 2 ^ 56

/-- There is room for the call in the area for I/O: it does not return `NULL`. -/
def IoCall.Room (io_base : UInt64) (c : IoCall) : Prop :=
  io_base + (ROUND (c.phys_addr + c.size) - ROUNDDOWN c.phys_addr) ≤ IO_ADDR_END

/-- A sequence of calls that come back and meet a condition, with `io_base` afterwards. -/
inductive IoRun {σ : Type} (h : Handler Op Op.Res σ) (P : UInt64 → IoCall → Prop) (z : Conf Memory σ) :
    List IoCall → UInt64 → Conf Memory σ → Prop where
  | nil : IoRun h P z [] IO_ADDR_START z
  | call {cs : List IoCall} {io_base io_base' : UInt64} {z' z'' : Conf Memory σ} {c : IoCall} :
      IoRun h P z cs io_base z' →
      P io_base c → exec h (ioremap c.phys_addr c.size io_base) z' = some ((c.ret, io_base'), z'') →
      IoRun h P z (cs ++ [c]) io_base' z''

/-- What the calls have returned is mapped, and lies apart in the area for I/O. -/
structure IoMapped (s : Memory) (cs : List IoCall) : Prop where
  maps : ∀ c ∈ cs, c.ret ≠ 0 → ∀ k < c.size.toNat,
    sv39 s.ram PGDIR_VA (c.ret + UInt64.ofNat k) = some (c.phys_addr + UInt64.ofNat k)
  area : ∀ c ∈ cs, c.ret ≠ 0 → IO_ADDR_START.toNat ≤ c.ret.toNat ∧ c.ret.toNat + c.size.toNat ≤ IO_ADDR_END.toNat
  apart : cs.Pairwise fun c c' => c.ret ≠ 0 → c'.ret ≠ 0 →
    c.ret.toNat + c.size.toNat ≤ c'.ret.toNat ∨ c'.ret.toNat + c'.size.toNat ≤ c.ret.toNat

/-- A call keeps what was mapped, and changes nothing if it fails. -/
structure IoKeeps (s s' : Memory) (c : IoCall) : Prop where
  earlier : ∀ va pa, sv39 s.ram PGDIR_VA va = some pa → sv39 s'.ram PGDIR_VA va = some pa
  failed : c.ret = 0 → SameMap s.ram s'.ram

/-- The memory manager with the tables `L` for I/O. No shared page is in use, so that none can be swapped out, and no
process has mapped a page where the kernel's entries for I/O will be. -/
structure IoInv (ρ κ : Roles) (L : List UInt64) (s : Memory) : Prop where
  inv : Inv ρ L s
  kept : Kept s
  unshared : ∀ i, (s.shm_pages i).isUsing = false
  unused : ∀ pid d v, Has ρ s pid .dir d → IoIndex v → s.ram PGDIR_VA v = 0 → s.ram d v = 0
  map : KernelMap κ L s.ram

/-- Nothing has been mapped for I/O yet. -/
def IoReady (s : Memory) : Prop := ∃ ρ κ, IoInv ρ κ [] s

variable {ρ κ : Roles} {L : List UInt64} {s s' : Memory} {ram ram' ram'' : Ram}
    {role : Role} {r : Ref} {va pa io_base pa_end kva e : UInt64}
  {v n len : ℕ}

/-! ### Taking a frame -/

theorem not_isShared (hu : ∀ i, (s.shm_pages i).isUsing = false) (kva : UInt64) : s.isShared kva = false := by
  rw [Bool.eq_false_iff, ne_eq, isShared_iff]
  rintro ⟨i, hi, -⟩
  rw [hu i] at hi
  cases hi

theorem Kept.note (h : Kept s) {n : Note} (hn : ∀ kva, n ≠ .evicted kva true) : Kept (s.note n) := by
  intro kva hm
  rcases List.mem_append.mp hm with hm | hm
  · exact h kva hm
  · exact hn kva (List.mem_singleton.mp hm).symm

theorem swap_page_out_kept (hu : ∀ i, (s.shm_pages i).isUsing = false) (hk : Kept s) :
    Partial s swap_page_out fun _ s' => Kept s' := by
  refine swap_page_out_spec.mono ?_
  rintro a s' ⟨ram, p, ps, r, -, -, -, rfl⟩
  refine Kept.note hk fun kva he => ?_
  have hsh : s.isShared p.addr = true := (Note.evicted.inj he).2
  rw [not_isShared hu] at hsh
  cases hsh

theorem alloc_kernel_page_kept (hu : ∀ i, (s.shm_pages i).isUsing = false) (hk : Kept s) :
    Partial s alloc_kernel_page fun _ s' => Kept s' := by
  have hhand : ∀ {s₁ : Memory} {kva : UInt64}, Kept s₁ → Partial s₁ (handOut kva) fun _ s' => Kept s' := by
    intro s₁ kva hk₁
    refine (handOut_spec kva).mono ?_
    rintro a s' ⟨-, rfl⟩
    exact hk₁.note fun _ he => nomatch he
  refine Partial.get_bind ?_
  split
  · refine Partial.modify_bind
      ((swap_page_out_kept (s := s.note .fallback) hu (hk.note fun _ he => nomatch he)).bind fun kva s₁ hk₁ =>
        ?_)
    exact hhand hk₁
  · exact Partial.modify_bind (hhand hk)

/-- A frame is taken for a table. -/
theorem IoInv.alloc (h : IoInv ρ κ L s) : Partial s alloc_kernel_page fun kva s' => Inv ρ (kva :: L) s' ∧ Kept s' ∧
    (∀ i, (s'.shm_pages i).isUsing = false) ∧
    (∀ pid d v, Has ρ s' pid .dir d → IoIndex v → s'.ram PGDIR_VA v = 0 → s'.ram d v = 0) ∧
      KernelMap κ L s'.ram ∧ SameMap s.ram s'.ram ∧ s'.ram PGDIR_VA = s.ram PGDIR_VA ∧ ∀ d ∈ L, s'.ram d = s.ram d := by
  refine (alloc_kernel_page_takes.and (alloc_kernel_page_kept h.unshared h.kept)).mono ?_
  rintro kva s' ⟨ht, hk⟩
  obtain ⟨hI, hx, hst, -⟩ := ht.2 hk ρ L h.inv
  have hL : ∀ d ∈ L, s'.ram d = s.ram d := fun d hd => hst.2 d fun pid v2 v1 hh => h.inv.frames.has_ne_taken hh hd rfl
  have ho : ∀ d, Outside d → s'.ram d = s.ram d :=
    fun d hd => hst.2 d fun pid v2 v1 hh => hd.1 (h.inv.frames.isFrame_of_has hh)
  obtain ⟨hmap, hsame⟩ := h.map.agree hx.kernel_dir hL ho
  refine ⟨hI, hk, ?_, fun pid d v hd hv hz => ?_, hmap, hsame, hx.kernel_dir, hL⟩
  · rw [ht.1.shm_pages]
    exact h.unshared
  · have hd' : Has ρ s pid .dir d := hd.congr hst.1.symm
    rw [hx.kernel_dir] at hz
    rw [hst.2 d fun pid v2 v1 hh => nomatch hh.1.symm.trans hd'.1]
    exact h.unused pid d v hd' hv hz

/-! ### Writing to the kernel's page table -/

/-- An entry of the kernel's page directory that no process uses is written. -/
theorem Inv.storeKernel (h : Inv ρ L s) (hun : ∀ pid d, Has ρ s pid .dir d → s.ram d v = 0) (he : e ≠ 0) :
    Inv ρ L { s with ram := s.ram.store ⟨PGDIR_VA, v⟩ e } := by
  have hne : ∀ {pid role k}, Has ρ s pid role k → s.ram.store ⟨PGDIR_VA, v⟩ e k = s.ram k := fun hh =>
    Ram.store_page _ _ _ (h.frames.isFrame_of_has hh).ne_PGDIR_VA
  have hzero : ∀ {w}, s.ram.store ⟨PGDIR_VA, v⟩ e PGDIR_VA w = 0 → s.ram PGDIR_VA w = 0 := by
    intro w hw
    rw [Ram.store_apply] at hw
    split at hw
    · exact absurd hw he
    · exact hw
  refine ⟨h.frames.putRam fun _ => _,
    ⟨fun pid d hd w hw hk => ?_, fun pid v2 d hd w hw => ?_, fun pid v2 v1 d hd w hw hp => ?_,
    fun p hp => ?_, h.tables.unique⟩, h.pids,
    h.sharing.putRam (g := fun _ => s.ram.store ⟨PGDIR_VA, v⟩ e) fun p hp _ r hr => ?_⟩
  · show Child ρ s pid (.mid w) (s.ram.store ⟨PGDIR_VA, v⟩ e d w)
    rw [hne hd]
    exact h.tables.dir pid d hd w hw (hzero hk)
  · show Child ρ s pid (.leaf v2 w) (s.ram.store ⟨PGDIR_VA, v⟩ e d w)
    rw [hne hd]
    exact h.tables.mid pid v2 d hd w hw
  · have hd' : s.ram.store ⟨PGDIR_VA, v⟩ e d = s.ram d := hne hd
    rw [show Memory.ram { s with ram := s.ram.store ⟨PGDIR_VA, v⟩ e } d = s.ram d from hd'] at hp ⊢
    exact h.tables.leaf pid v2 v1 d hd w hw hp
  · obtain ⟨d, r, hd, hk, hw, hr⟩ := h.tables.entry p hp
    obtain ⟨h2, hmid, -⟩ := h.tables.walk hd hk hw
    refine ⟨d, r, hd, ?_, ?_, hr⟩
    · show s.ram.store ⟨PGDIR_VA, v⟩ e PGDIR_VA (vpn2 p.uva).toNat = 0
      rw [Ram.store_apply, if_neg, hk]
      intro hv
      exact h2 ((Ref.mk.inj hv).2 ▸ hun _ d hd)
    · exact (uva2pte_congr (congrFun (hne hd) _) (congrFun (hne hmid) _)).trans hw
  · obtain ⟨r', hr', -, hleaf⟩ := h.tables.entry_has (h.tables.entry p (List.mem_append_left _ hp))
    obtain rfl := Option.some.inj (hr.symm.trans hr')
    have : (s.ram.store ⟨PGDIR_VA, v⟩ e).load r = s.ram.load r := congrFun (hne hleaf) r.idx
    rw [this]
    exact ⟨fun h => h, rfl⟩

/-- A frame that has been taken is written. -/
theorem Inv.writeTaken (h : Inv ρ L s) (hm : kva ∈ L) (hg : ∀ k, k ≠ kva → ram' k = s.ram k) :
    Inv ρ L { s with ram := ram' } := by
  refine (h.write (g := fun _ => ram') (h.frames.taken kva hm).isFrame (fun hk => ?_) hg).1
  exact (List.nodup_append.mp h.frames.kernel).2.2 _ hk _ hm rfl

/-! ### Mapping a page -/

theorem IoInv.frame (h : IoInv ρ κ L s) : ∀ d ∈ L, IsFrame d := fun d hd => (h.inv.frames.taken d hd).isFrame

/-- A new table is linked where a walk stops. -/
theorem newIoTable_spec (h : IoInv ρ κ L s) (hs : IoSlot κ L s.ram r role) (h0 : s.ram.load r = 0) :
    Partial s (newIoTable r) fun _ s' => ∃ κ' L',
    IoInv ρ κ' L' s' ∧ SameMap s.ram s'.ram ∧ IsTable κ' L' role (s'.ram.load r) ∧
      (∀ d ∈ L, d ∈ L' ∧ κ' d = κ d) ∧ ∀ v, r ≠ ⟨PGDIR_VA, v⟩ → s'.ram PGDIR_VA v = s.ram PGDIR_VA v := by
  refine h.alloc.bind fun kva s₁ h₁ => Partial.modify_bind (Partial.modify ?_)
  obtain ⟨hI, hk, hu, hun, hmap, hsame, htop, hL⟩ := h₁
  have hn : kva ∉ L := (List.nodup_cons.mp (List.nodup_append.mp hI.frames.kernel).2.1).1
  have hf : IsFrame kva := (hI.frames.taken kva (List.mem_cons_self ..)).isFrame
  have hpage : r.page = PGDIR_VA ∨ r.page ∈ L := by
    cases role with
    | mid v2 => exact Or.inl (by rw [hs.1])
    | leaf v2 v1 =>
      obtain ⟨rfl, -, -, ht⟩ := hs
      exact Or.inr ht.mem
    | stack => exact hs.elim
    | dir => exact hs.elim
  have h0' : s₁.ram.load r = 0 := by
    rcases hpage with hp | hp
    · rw [← h0, Ram.load, hp, htop, Ram.load, hp]
    · rw [← h0, Ram.load, hL _ hp, Ram.load]
  have hs₁ : IoSlot κ L s₁.ram r role := by
    cases role with
    | mid v2 => exact hs
    | leaf v2 v1 =>
      rw [IoSlot, htop]
      exact hs
    | stack => exact hs
    | dir => exact hs
  obtain ⟨hmap', hsame'⟩ := hmap.link h.frame hf hn hs₁ h0'
  have hne : ∀ d ∈ L, d ≠ kva := by
    rintro d hd rfl
    exact hn hd
  have hrne : r.page ≠ kva := hpage.elim (fun hp => hp ▸ hf.ne_PGDIR_VA.symm) (hne _)
  have hr : (s₁.ram.link r kva).load r = mapEntry 0 kva PAGE_PRESENT := by
    rw [Ram.load, Ram.link_page hrne, if_pos rfl, h0']
  have hpres : mapEntry 0 kva PAGE_PRESENT ≠ 0 := (@present_mapEntry 0 kva PAGE_PRESENT (by decide)).ne_zero
  -- the entry
  have hI₁ : Inv ρ (kva :: L) { s₁ with ram := s₁.ram.store r (mapEntry (s₁.ram.load r) kva PAGE_PRESENT) } := by
    rw [h0']
    cases role with
    | mid v2 =>
      obtain ⟨rfl, hio⟩ := hs
      exact hI.storeKernel (fun pid d hd => hun pid d v2 hd hio h0') hpres
    | leaf v2 v1 =>
      exact hI.writeTaken (List.mem_cons_of_mem _ (hpage.resolve_left fun hp => by
        obtain ⟨rfl, -, -, ht⟩ := hs
        exact (h.frame _ ht.mem).ne_PGDIR_VA hp)) fun k hk => Ram.store_page _ _ _ hk
    | stack => exact hs.elim
    | dir => exact hs.elim
  -- the table
  have hI₂ : Inv ρ (kva :: L) { s₁ with ram := s₁.ram.link r kva } :=
    hI₁.writeTaken (List.mem_cons_self ..) fun k hk => Ram.fill_page _ _ _ hk
  refine ⟨_, _, ⟨hI₂, hk, hu, fun pid d v hd hv hz => ?_, hmap'⟩,
    fun va => (hsame' va).trans (hsame va), ?_, fun d hd => ?_, fun v hv => ?_⟩
  · have hd' : Has ρ s₁ pid .dir d := hd
    have hdr : d ≠ r.page := by
      rintro rfl
      rcases hpage with hp | hp
      · exact (hI.frames.isFrame_of_has hd').ne_PGDIR_VA hp
      · exact hI.frames.has_ne_taken hd' (List.mem_cons_of_mem _ hp) rfl
    have hdk : d ≠ kva := hI.frames.has_ne_taken hd' (List.mem_cons_self ..)
    show s₁.ram.link r kva d v = 0
    rw [Ram.link_page_of_ne hdk hdr]
    refine hun pid d v hd' hv ?_
    have hz' : s₁.ram.link r kva PGDIR_VA v = 0 := hz
    rw [Ram.link_page hf.ne_PGDIR_VA.symm] at hz'
    split at hz'
    · rw [h0'] at hz'
      exact absurd hz' hpres
    · exact hz'
  · show IsTable _ _ role ((s₁.ram.link r kva).load r)
    rw [hr]
    exact isTable_mapEntry hf (List.mem_cons_self ..) (Function.update_self ..)
  · exact ⟨List.mem_cons_of_mem _ hd, Function.update_of_ne (hne d hd) ..⟩
  · show s₁.ram.link r kva PGDIR_VA v = s.ram PGDIR_VA v
    rw [Ram.link_page hf.ne_PGDIR_VA.symm, if_neg (Ne.symm hv), htop]

/-- The entry for the page of the physical address `pa`. -/
theorem get_pa_entry (hpa : pa.toNat < 2 ^ 56) (e : UInt64) :
    get_pa (set_attribute (set_pfn e (pa >>> 12)) PAGE_MAPPED) = ROUNDDOWN pa := by
  have hpfn : (pa >>> 12).toNat < 2 ^ 44 := by
    simp only [UInt64.toNat_shiftRight, UInt64.reduceToNat,
      Nat.shiftRight_eq_div_pow, show 2 ^ (12 % 64) = 4096 from rfl]
    omega
  rw [get_pa, get_pfn_set_pfn _ hpfn PAGE_MAPPED_lt, ROUNDDOWN_eq]

theorem present_entry (e pfn : UInt64) : Present (set_attribute (set_pfn e pfn) PAGE_MAPPED) := by
  rw [present_iff, wbit_entry_low _ _ _ (by decide), wbit_PAGE_MAPPED, Bool.or_true]

theorem isLeaf_entry (e pfn : UInt64) : IsLeaf (set_attribute (set_pfn e pfn) PAGE_MAPPED) := by
  refine isLeaf_iff.mpr (Or.inl ?_)
  rw [wbit_entry_low _ _ _ (by decide), show wbit PAGE_MAPPED 1 = true from rfl, Bool.or_true]

/-- `iomap_page` maps a page of the area for I/O, and that page only. -/
theorem iomap_page_spec (h : IoInv ρ κ L s) (hio : IoIndex (vpn2 va).toNat) (hpa : pa.toNat < 2 ^ 56) :
    Partial s (iomap_page va pa PGDIR_VA) fun _ s' => ∃ κ' L', IoInv ρ κ' L' s' ∧
      (∀ va', ¬ SameNumbers va va' → sv39 s'.ram PGDIR_VA va' = sv39 s.ram PGDIR_VA va') ∧
      ∀ va', SameNumbers va va' → Canonical va' → sv39 s'.ram PGDIR_VA va' = some (ROUNDDOWN pa + va' % 0x1000) := by
  -- the second-level table
  refine Partial.get_bind (Partial.bind (q := fun _ s₁ => ∃ κ₁ L₁, IoInv ρ κ₁ L₁ s₁ ∧ SameMap s.ram s₁.ram ∧
    IsTable κ₁ L₁ (.mid (vpn2 va).toNat) (s₁.ram PGDIR_VA (vpn2 va).toNat))
    (Partial.ite (fun h0 => ?_) fun h0 => ?_) fun _ s₁ h₁ => ?_)
  · have hslot : IoSlot κ L s.ram ⟨PGDIR_VA, (vpn2 va).toNat⟩ (.mid (vpn2 va).toNat) := ⟨rfl, hio⟩
    refine (newIoTable_spec h hslot h0).mono ?_
    rintro _ s₁ ⟨κ₁, L₁, hI, hsame, ht, -⟩
    exact ⟨κ₁, L₁, hI, hsame, ht⟩
  · exact Partial.pure ⟨κ, L, h, fun _ => rfl, (h.map.io _ hio).resolve_left h0⟩
  obtain ⟨κ₁, L₁, hI₁, hsame₁, ht₁⟩ := h₁
  -- the first-level table
  refine Partial.get_bind (Partial.bind (q := fun _ s₂ => ∃ κ₂ L₂, IoInv ρ κ₂ L₂ s₂ ∧ SameMap s.ram s₂.ram ∧
    LeadsTo κ₂ L₂ s₂.ram va (target (s₂.ram (target (s₁.ram PGDIR_VA (vpn2 va).toNat)) (vpn1 va).toNat)))
    (Partial.ite (fun h0 => ?_) fun h0 => ?_) fun _ s₂ h₂ => ?_)
  · have hslot : IoSlot κ₁ L₁ s₁.ram ⟨target (s₁.ram PGDIR_VA (vpn2 va).toNat), (vpn1 va).toNat⟩
        (.leaf (vpn2 va).toNat (vpn1 va).toNat) :=
      ⟨rfl, hio, vpn1_lt va, ht₁⟩
    refine (newIoTable_spec hI₁ hslot h0).mono ?_
    rintro _ s₂ ⟨κ₂, L₂, hI₂, hsame₂, ht₂, hL, htop⟩
    have htop' : s₂.ram PGDIR_VA (vpn2 va).toNat = s₁.ram PGDIR_VA (vpn2 va).toNat := by
      refine htop _ fun he => ?_
      exact (hI₁.frame _ ht₁.mem).ne_PGDIR_VA (Ref.mk.inj he).1
    refine ⟨κ₂, L₂, hI₂, fun va => (hsame₂ va).trans (hsame₁ va), ?_, ?_, ?_⟩
    · rw [htop']
      exact ht₁.mono hL
    · rw [htop']
      exact ht₂
    · rw [htop']
  · exact Partial.pure ⟨κ₁, L₁, hI₁, hsame₁, ht₁,
      (hI₁.map.mid _ ht₁.mem _ ht₁.role _ (vpn1_lt va)).resolve_left h0, rfl⟩
  obtain ⟨κ₂, L₂, hI₂, hsame₂, hl⟩ := h₂
  -- the entry
  refine Partial.get_bind ?_
  generalize target (s₂.ram (target (s₁.ram PGDIR_VA (vpn2 va).toNat)) (vpn1 va).toNat) = d at hl
  refine Partial.modify_bind (Partial.pure ?_)
  obtain ⟨hmap, hother, hpage⟩ := hI₂.map.store hI₂.frame hl
    (set_attribute (set_pfn (s₂.ram.load ⟨d, (vpn0 va).toNat⟩) (pa >>> 12)) PAGE_MAPPED)
  have hmem : d ∈ L₂ := hl.page ▸ hl.mid.mem
  refine ⟨κ₂, L₂, ⟨hI₂.inv.writeTaken hmem fun k hk => Ram.store_page _ _ _ hk,
    hI₂.kept, hI₂.unshared, fun pid k v hk hv hz => ?_, hmap⟩,
    fun va' hn => (hother va' hn).trans (hsame₂ va'), fun va' hs hc => ?_⟩
  · have hk' : Has ρ s₂ pid .dir k := hk
    refine (congrFun (Ram.store_page _ _ _ (hI₂.inv.frames.has_ne_taken hk' hmem)) v).trans
      (hI₂.unused pid k v hk' hv ?_)
    exact (congrFun (Ram.store_page _ _ _ (hI₂.frame _ hmem).ne_PGDIR_VA.symm) v).symm.trans hz
  · refine (hpage va' hs hc (present_entry _ _) (isLeaf_entry _ _)).trans ?_
    rw [get_pa_entry hpa]

/-! ### Mapping a range -/

/-- The kernel's page table now leads the `len` bytes from `io` on to those from `pa` on, and all other addresses where
it led them before. -/
structure MapsRange (ram ram' : Ram) (io pa : UInt64) (len : ℕ) : Prop where
  inside : ∀ k < len, sv39 ram' PGDIR_VA (io + UInt64.ofNat k) = some (pa + UInt64.ofNat k)
  outside : ∀ va, ¬ (io.toNat ≤ va.toNat ∧ va.toNat < io.toNat + len) → sv39 ram' PGDIR_VA va = sv39 ram PGDIR_VA va

theorem toNat_IO_ADDR_START : IO_ADDR_START.toNat = 0xffffffe000000000 := rfl

theorem toNat_IO_ADDR_END : IO_ADDR_END.toNat = 0xffffffe400000000 := rfl

theorem canonical_io (h1 : 0xffffffe000000000 ≤ va.toNat) (h2 : va.toNat < 0xffffffe400000000) : Canonical va := by
  refine Or.inr (UInt64.toNat_inj.mp ?_)
  simp only [UInt64.toNat_shiftRight, UInt64.reduceToNat,
    Nat.shiftRight_eq_div_pow, show 2 ^ (38 % 64) = 274877906944 from rfl]
  omega

theorem ioIndex_io (h1 : 0xffffffe000000000 ≤ va.toNat) (h2 : va.toNat < 0xffffffe400000000) :
    IoIndex (vpn2 va).toNat := by
  rw [toNat_vpn2, IoIndex]
  omega

theorem toNat_add_ofNat (a : UInt64) {k : ℕ} (h : a.toNat + k < 2 ^ 64) : (a + UInt64.ofNat k).toNat = a.toNat + k := by
  rw [UInt64.toNat_add, UInt64.toNat_ofNat', Nat.mod_eq_of_lt (by omega : k < 2 ^ 64), Nat.mod_eq_of_lt h]

theorem toNat_shiftRight_twelve (a : UInt64) : (a >>> 12).toNat = a.toNat / 4096 := by
  rw [UInt64.toNat_shiftRight, Nat.shiftRight_eq_div_pow]
  rfl

/-- A page of the area for I/O. -/
theorem iomap_page_range (h : IoInv ρ κ L s) (h1 : 0xffffffe000000000 ≤ va.toNat)
    (h2 : va.toNat + 4096 ≤ 0xffffffe400000000)
    (hva : va.toNat % 4096 = 0) (hpa : pa.toNat % 4096 = 0) (hb : pa.toNat < 2 ^ 56) :
    Partial s (iomap_page va pa PGDIR_VA) fun _ s' => ∃ κ' L',
    IoInv ρ κ' L' s' ∧ MapsRange s.ram s'.ram va pa 4096 := by
  have hva' := canonical_io h1 (by omega)
  refine (iomap_page_spec h (ioIndex_io h1 (by omega)) hb).mono ?_
  rintro _ s' ⟨κ', L', hI, hother, hpage⟩
  refine ⟨κ', L', hI, fun k hk => ?_, fun va' hn => ?_⟩
  · have hto : (va + UInt64.ofNat k).toNat = va.toNat + k := toNat_add_ofNat va (by omega)
    have hsame : SameNumbers va (va + UInt64.ofNat k) := by
      refine sameNumbers_of_shift (UInt64.toNat_inj.mp ?_)
      rw [toNat_shiftRight_twelve, toNat_shiftRight_twelve, hto]
      omega
    have hcan : Canonical (va + UInt64.ofNat k) := by
      refine canonical_io ?_ ?_
      · rw [hto]
        omega
      · rw [hto]
        omega
    rw [hpage _ hsame hcan]
    congr 2
    · apply UInt64.toNat_inj.mp
      rw [toNat_ROUNDDOWN]
      omega
    · apply UInt64.toNat_inj.mp
      rw [UInt64.toNat_mod, hto, UInt64.toNat_ofNat']
      show (va.toNat + k) % 4096 = _
      omega
  · by_cases hs : SameNumbers va va'
    · by_cases hc : Canonical va'
      · refine absurd ?_ hn
        have he := congrArg UInt64.toNat (hs.shift hva' hc)
        rw [toNat_shiftRight_twelve, toNat_shiftRight_twelve] at he
        omega
      · rw [sv39, sv39, if_pos hc, if_pos hc]
    · exact hother va' hs

theorem MapsRange.append {n m : ℕ} {io io' pa pa' : UInt64}
    (h : MapsRange ram ram' io pa n) (h' : MapsRange ram' ram'' io' pa' m)
    (hio : io' = io + UInt64.ofNat n) (hpa : pa' = pa + UInt64.ofNat n) (hn : io.toNat + (n + m) < 2 ^ 64) :
    MapsRange ram ram'' io pa (n + m) := by
  have hto : io'.toNat = io.toNat + n := by
    rw [hio]
    exact toNat_add_ofNat io (by omega)
  refine ⟨fun k hk => ?_, fun va hv => ?_⟩
  · by_cases hkn : k < n
    · rw [h'.outside, h.inside k hkn]
      rw [hto, toNat_add_ofNat io (by omega)]
      omega
    · have hj := h'.inside (k - n) (by omega)
      have hk' : UInt64.ofNat n + UInt64.ofNat (k - n) = UInt64.ofNat k := by
        rw [← UInt64.ofNat_add, Nat.add_sub_cancel' (by omega)]
      rwa [hio, hpa, UInt64.add_assoc, UInt64.add_assoc, hk'] at hj
  · rw [h'.outside va (by omega), h.outside va (by omega)]

/-- The loop maps `n` pages. -/
theorem ioremapLoop_spec (h : IoInv ρ κ L s) (h1 : 0xffffffe000000000 ≤ io_base.toNat)
    (h2 : io_base.toNat + 4096 * n ≤ 0xffffffe400000000)
    (hio : io_base.toNat % 4096 = 0) (hpa : pa.toNat % 4096 = 0)
    (hend : pa_end.toNat = pa.toNat + 4096 * n) (hb : pa_end.toNat ≤ 2 ^ 56) :
    Partial s (ioremapLoop pa_end (n + 1) pa io_base) fun b s' => b.toNat = io_base.toNat + 4096 * n ∧
      ∃ κ' L', IoInv ρ κ' L' s' ∧ MapsRange s.ram s'.ram io_base pa (4096 * n) := by
  induction n generalizing s κ L io_base pa with
  | zero =>
    have hlt : ¬ pa < pa_end := by
      rw [UInt64.lt_iff_toNat_lt]
      omega
    rw [ioremapLoop, if_neg hlt]
    exact Partial.pure ⟨by omega, κ, L, h, fun k hk => absurd hk (by omega), fun _ _ => rfl⟩
  | succ n ih =>
    rw [Nat.mul_succ, Nat.add_comm (4096 * n), ← Nat.add_assoc] at h2 hend ⊢
    have hlt : pa < pa_end := by
      rw [UInt64.lt_iff_toNat_lt]
      omega
    have hpa' : (pa + PAGE_SIZE).toNat = pa.toNat + 4096 := toNat_add_ofNat pa (k := 4096) (by omega)
    have hio' : (io_base + PAGE_SIZE).toNat = io_base.toNat + 4096 := toNat_add_ofNat io_base (k := 4096) (by omega)
    rw [ioremapLoop, if_pos hlt]
    generalize hp : pa + PAGE_SIZE = pa', hi : io_base + PAGE_SIZE = io' at hpa' hio' ⊢
    refine (iomap_page_range h h1 (by omega) hio hpa (by omega)).bind fun _ s₁ h₁ => ?_
    obtain ⟨κ₁, L₁, hI₁, hm₁⟩ := h₁
    refine (ih hI₁ (by omega) (by omega) (by omega) (by omega) (by omega)).mono ?_
    rintro b s₂ ⟨hbase, κ₂, L₂, hI₂, hm₂⟩
    refine ⟨by omega, κ₂, L₂, hI₂, ?_⟩
    exact hm₁.append hm₂ hi.symm hp.symm (by omega)

/-! ### Calls in sequence -/

variable {σ : Type} {h : Handler Op Op.Res σ} {z z₁ : Conf Memory σ} {c : IoCall} {cs : List IoCall} {b b' : UInt64}

/-- A call fails and changes nothing, or maps the range from the cursor on. -/
theorem ioremap_spec (hI : IoInv ρ κ L s) (h1 : 0xffffffe000000000 ≤ b.toNat)
    (hb : b.toNat % 4096 = 0) (hw : c.NoWrap b)
    (hm : c.Room b → c.Mappable) : Partial s (ioremap c.phys_addr c.size b) fun r s' => (r = (0, b) ∧ s' = s) ∨
      ∃ len, c.size.toNat ≤ len ∧ len % 4096 = 0 ∧ r.1 = b ∧
      r.2.toNat = b.toNat + len ∧ b.toNat + len ≤ 0xffffffe400000000 ∧
        ∃ κ' L', IoInv ρ κ' L' s' ∧ MapsRange s.ram s'.ram b c.phys_addr len := by
  by_cases hroom : c.Room b
  case neg =>
    rw [ioremap]
    exact Partial.ite (fun hle => absurd hle hroom) fun _ => Partial.pure (Or.inl ⟨rfl, rfl⟩)
  obtain ⟨hphys, hio⟩ := hw
  obtain ⟨haligned, hbound⟩ := hm hroom
  have hsum : (c.phys_addr + c.size).toNat = c.phys_addr.toNat + c.size.toNat := by
    rw [UInt64.toNat_add, Nat.mod_eq_of_lt (by omega)]
  have hstart : ROUNDDOWN c.phys_addr = c.phys_addr := by
    apply UInt64.toNat_inj.mp
    rw [toNat_ROUNDDOWN]
    omega
  have hend : (ROUND (c.phys_addr + c.size)).toNat = (c.phys_addr.toNat + c.size.toNat + 4095) / 4096 * 4096 := by
    rw [toNat_ROUND (by omega), hsum]
  rw [hstart] at hio
  rw [ioremap, hstart]
  generalize ROUND (c.phys_addr + c.size) = pa_end at hio hend ⊢
  have hlen : (pa_end - c.phys_addr).toNat = pa_end.toNat - c.phys_addr.toNat := by
    refine UInt64.toNat_sub_of_le _ _ ?_
    rw [UInt64.le_iff_toNat_le]
    omega
  obtain ⟨n, hn⟩ : ∃ n, pa_end.toNat = c.phys_addr.toNat + 4096 * n :=
    ⟨(pa_end.toNat - c.phys_addr.toNat) / 4096, by omega⟩
  have hlen' : (pa_end - c.phys_addr).toNat = 4096 * n := by omega
  have hadd : (b + (pa_end - c.phys_addr)).toNat = b.toNat + 4096 * n := by
    rw [UInt64.toNat_add, Nat.mod_eq_of_lt hio, hlen']
  refine Partial.ite (fun hle => ?_) fun _ => Partial.pure (Or.inl ⟨rfl, rfl⟩)
  rw [UInt64.le_iff_toNat_le, hadd, toNat_IO_ADDR_END] at hle
  have hfuel : ((pa_end - c.phys_addr) / PAGE_SIZE).toNat = n := by
    rw [UInt64.toNat_div, hlen']
    exact Nat.mul_div_cancel_left n (by decide)
  rw [hfuel]
  refine (ioremapLoop_spec hI h1 hle hb haligned hn (by omega)).bind fun b' s' h' => Partial.pure (Or.inr ?_)
  obtain ⟨hb', hrest⟩ := h'
  exact ⟨4096 * n, by omega, Nat.mul_mod_right 4096 n, rfl, hb', hle, hrest⟩

/-- What is known after calls: the cursor is in the area for I/O, all that was returned lies below it, and nothing is
mapped from it on. -/
structure IoProgress (ρ : Roles) (b : UInt64) (s : Memory) (cs : List IoCall) : Prop where
  state : ∃ κ L, IoInv ρ κ L s
  lower : 0xffffffe000000000 ≤ b.toNat
  upper : b.toNat ≤ 0xffffffe400000000
  aligned : b.toNat % 4096 = 0
  fresh : ∀ va : UInt64, b.toNat ≤ va.toNat → va.toNat < 0xffffffe400000000 → sv39 s.ram PGDIR_VA va = none
  mapped : IoMapped s cs
  below : ∀ c ∈ cs, c.ret ≠ 0 → c.ret.toNat + c.size.toNat ≤ b.toNat

theorem IoInv.progress (hI : IoInv ρ κ [] s) : IoProgress ρ IO_ADDR_START s [] := by
  refine ⟨⟨κ, [], hI⟩, Nat.le_refl _, ?_, rfl, fun va h1 h2 => ?_,
    ⟨fun _ h => absurd h List.not_mem_nil, fun _ h => absurd h List.not_mem_nil, List.Pairwise.nil⟩,
    fun _ h => absurd h List.not_mem_nil⟩
  · rw [toNat_IO_ADDR_START]
    decide
  · have h0 := (hI.map.io _ (ioIndex_io h1 h2)).resolve_right fun ht => absurd ht.mem List.not_mem_nil
    rw [sv39_eq (canonical_io h1 h2), h0, walkLevel_zero]

/-- One call. -/
theorem IoProgress.call (hp : IoProgress ρ b s cs) (hw : c.NoWrap b) (hm : c.Room b → c.Mappable) :
    Partial s (ioremap c.phys_addr c.size b) fun r s' =>
    r.1 = c.ret → IoProgress ρ r.2 s' (cs ++ [c]) ∧ IoKeeps s s' c := by
  obtain ⟨⟨κ, L, hI⟩, h1, h2, hal, hfresh, ⟨hmaps, harea, hapart⟩, hbelow⟩ := hp
  refine (ioremap_spec hI h1 hal hw hm).mono ?_
  rintro ⟨ret, b'⟩ s' (⟨he, rfl⟩ | ⟨len, hlen, hmod, hrb, hb', hle, κ', L', hI', hin, hout⟩) hret
  · obtain ⟨rfl, rfl⟩ := Prod.mk.inj he
    have hnot : ∀ c' ∈ cs ++ [c], c'.ret ≠ 0 → c' ∈ cs := by
      intro c' hc' hne
      refine (List.mem_append.mp hc').resolve_right fun h => hne ?_
      rw [List.mem_singleton.mp h, ← hret]
    refine ⟨⟨⟨κ, L, hI⟩, h1, h2, hal, hfresh,
      ⟨fun c' hc' hne => hmaps c' (hnot c' hc' hne) hne, fun c' hc' hne => harea c' (hnot c' hc' hne) hne,
      List.pairwise_append.mpr ⟨hapart, List.pairwise_singleton _ _, fun c' _ c'' hc'' _ hne => ?_⟩⟩,
      fun c' hc' hne => hbelow c' (hnot c' hc' hne) hne⟩, fun _ _ h => h, fun _ _ => rfl⟩
    rw [List.mem_singleton.mp hc'', ← hret] at hne
    exact absurd rfl hne
  · obtain rfl : ret = b := hrb
    have hb : ret = c.ret := hret
    have hb' : b'.toNat = ret.toNat + len := hb'
    show IoProgress ρ b' s' _ ∧ _
    refine ⟨⟨⟨κ', L',
      hI'⟩, by omega, by omega, by
      omega, fun va hv hv' => ?_, ⟨fun c' hc' hne k hk => ?_, fun c' hc' hne => ?_,
      List.pairwise_append.mpr ⟨hapart, List.pairwise_singleton _ _, fun c' hc' c'' hc'' hne _ => ?_⟩⟩,
      fun c' hc' hne => ?_⟩,
      fun va pa hv => ?_, fun hz => ?_⟩
    · rw [hout va (by omega)]
      exact hfresh va (by omega) hv'
    · rcases List.mem_append.mp hc' with hc' | hc'
      · have hlow := hbelow c' hc' hne
        rw [hout, hmaps c' hc' hne k hk]
        rw [toNat_add_ofNat _ (by omega)]
        omega
      · obtain rfl := List.mem_singleton.mp hc'
        rw [← hb]
        exact hin k (by omega)
    · rcases List.mem_append.mp hc' with hc' | hc'
      · exact harea c' hc' hne
      · obtain rfl := List.mem_singleton.mp hc'
        rw [← hb, toNat_IO_ADDR_START, toNat_IO_ADDR_END]
        omega
    · obtain rfl := List.mem_singleton.mp hc''
      rw [← hb]
      exact Or.inl (hbelow c' hc' hne)
    · rcases List.mem_append.mp hc' with hc' | hc'
      · have hlow := hbelow c' hc' hne
        omega
      · obtain rfl := List.mem_singleton.mp hc'
        rw [← hb]
        omega
    · rw [hout, hv]
      intro hr
      have hnone := hfresh va hr.1 (by omega)
      rw [hv] at hnone
      cases hnone
    · rw [← hb] at hz
      rw [hz] at h1
      exact absurd h1 (by decide)

/-- The sums of a call do not wrap, and it can be mapped if there is room for it. -/
def IoCall.Ok (b : UInt64) (c : IoCall) : Prop := c.NoWrap b ∧ (c.Room b → c.Mappable)

/-- The run lemma. -/
theorem IoRun.progress (hr : IoRun h IoCall.Ok z cs b z₁) (hI : IoInv ρ κ [] z.mem) : IoProgress ρ b z₁.mem cs := by
  induction hr with
  | nil => exact hI.progress
  | call _ hok he ih => exact (IoProgress.call ih hok.1 hok.2 _ h _ _ _ he rfl).1

/-- After any calls whose sums do not wrap, each too large for what is left of the area or for whole pages
with page numbers of 44 bits, what was returned is mapped and lies apart, and the next such call keeps all
that is mapped. -/
theorem ioremap_maps (hz : IoReady z.mem) (hr : IoRun h IoCall.Ok z cs b z₁) : IoMapped z₁.mem cs ∧
    ∀ (c : IoCall) (b' : UInt64) (z₂ : Conf Memory σ), c.Ok b →
      exec h (ioremap c.phys_addr c.size b) z₁ = some ((c.ret, b'), z₂) → IoKeeps z₁.mem z₂.mem c := by
  obtain ⟨ρ, κ, hI⟩ := hz
  have hp := hr.progress hI
  exact ⟨hp.mapped, fun c b' z₂ hok he => (hp.call hok.1 hok.2 _ h _ _ _ he rfl).2⟩

/-! ### The kernel as it was loaded -/

/-- The page of the second-level table that `setup_vm` takes. -/
def bootTable : UInt64 := PGDIR_VA + PAGE_SIZE

/-- The kernel's page table after `setup_vm`: large pages from `0xffffffc050000000` on. -/
def bootRam : Ram := fun kva k =>
  if kva = PGDIR_VA ∧ k = 257 then mapEntry 0 bootTable PAGE_PRESENT
  else if kva = bootTable ∧ 128 ≤ k ∧
    k < 256 then set_attribute (set_pfn 0 (0x50000 + UInt64.ofNat (k - 128) * 512)) 0xcf
  else 0

/-- The memory manager after `init_mem_manager`. -/
def booted : Memory where
  ram := bootRam
  kernel_bitmap := Function.update (fun _ => 0) 0 0x0f
  user_bitmap _ := 0
  kernel_page_head := []
  user_page_mem_head := []
  user_page_sd_head := []
  sd_sector_end := 200
  pcb _ := ⟨0, true, 0, 0, 0, 0, 0⟩
  process_id := 0
  tasks := []
  shm_pages _ := ⟨0, false, 0, 0⟩
  userMemCurr := USER_STACK_ADDR
  attached := []
  log := []

theorem outside_bootTable : Outside bootTable := by
  refine ⟨?_, by decide⟩
  rintro ⟨n, hn, he⟩
  have h := congrArg UInt64.toNat he
  rw [toNat_kernelFrame hn, show bootTable.toNat = 0xffffffc051001000 from rfl] at h
  omega

theorem kernelMap_bootRam : KernelMap (fun _ => .stack) [] bootRam := by
  have htop : ∀ v, Present (bootRam PGDIR_VA v) → target (bootRam PGDIR_VA v) = bootTable := by
    intro v hp
    by_cases hv : v = 257
    · subst hv
      decide
    · refine absurd hp ?_
      rw [bootRam, if_neg fun h => hv h.2, if_neg fun h => absurd h.1 (by decide)]
      exact not_present_zero
  refine ⟨fun v hv => Or.inl ?_, fun d hd => absurd hd List.not_mem_nil,
    fun v _ hp _ => ?_, fun v _ hp _ v1 hp' hl' => absurd ?_ hl'⟩
  · rw [bootRam, if_neg, if_neg fun h => absurd h.1 (by decide)]
    rintro ⟨-, rfl⟩
    exact absurd hv.1 (by decide)
  · rw [htop v hp]
    exact outside_bootTable
  · rw [htop v hp] at hp' ⊢
    rw [bootRam, if_neg fun h => absurd h.1 (by decide)] at hp' ⊢
    split at hp'
    · next hk =>
      rw [if_pos hk]
      refine isLeaf_iff.mpr (Or.inl ?_)
      rw [wbit_entry_low _ _ _ (by decide)]
      rfl
    · exact absurd hp' not_present_zero

/-- Nothing is mapped for I/O when the kernel starts. -/
theorem ioReady_booted : IoReady booted := by
  have hnone : ∀ {ρ pid role kva}, ¬ Has ρ booted pid role kva := by
    rintro ρ pid role kva ⟨-, n, hn, -⟩
    exact absurd hn List.not_mem_nil
  refine ⟨fun _ => .stack, fun _ => .stack, ⟨⟨?_, ?_, ?_, ?_⟩, fun _ hm => absurd hm List.not_mem_nil, fun _ => rfl,
    fun _ _ _ hd => absurd hd hnone, kernelMap_bootRam⟩⟩
  · exact ⟨fun _ h => absurd h List.not_mem_nil, fun _ h => absurd h List.not_mem_nil,
      List.nodup_nil, fun _ h => absurd h List.not_mem_nil,
      fun _ h => absurd h List.not_mem_nil, List.Pairwise.nil,
      fun _ h => absurd h List.not_mem_nil, fun _ h => absurd h List.not_mem_nil,
      fun _ _ h => absurd h List.not_mem_nil, fun _ _ _ h => absurd h List.not_mem_nil⟩
  · exact ⟨fun _ _ hd => absurd hd hnone, fun _ _ _ hd => absurd hd hnone, fun _ _ _ _ hd => absurd hd hnone,
      fun _ h => absurd h List.not_mem_nil, fun _ _ _ hd => absurd hd hnone⟩
  · exact fun _ h => absurd h List.not_mem_nil
  · exact ⟨fun _ h => absurd h Bool.false_ne_true, fun _ _ => rfl, fun _ _ h => absurd h Bool.false_ne_true,
      fun _ h => absurd h List.not_mem_nil, fun _ h => absurd h List.not_mem_nil, List.nodup_nil, List.Pairwise.nil,
      fun _ h => absurd h List.not_mem_nil, fun _ h => absurd h List.not_mem_nil⟩

/-- Two calls for two pages and for one, and one that fails: the two ranges are mapped, and they are apart. -/
theorem ioremap_maps_two : ∃ (b : UInt64) (z₁ : Conf Memory Unit),
    IoRun idleCard IoCall.Ok ⟨booted, ()⟩
    [⟨0x30000000, 5000, IO_ADDR_START⟩, ⟨0x40000000, 4096, IO_ADDR_START + 8192⟩, ⟨1, 0x1000000000, 0⟩] b z₁ ∧
      sv39 z₁.mem.ram PGDIR_VA (IO_ADDR_START + UInt64.ofNat 4999) = some (0x30000000 + UInt64.ofNat 4999) ∧
      sv39 z₁.mem.ram PGDIR_VA (IO_ADDR_START + 8192 + UInt64.ofNat 4095) = some (0x40000000 + UInt64.ofNat 4095) := by
  have hrun : (exec idleCard (ioremap 0x30000000 5000 IO_ADDR_START) ⟨booted, ()⟩).bind (fun r₁ =>
      (exec idleCard (ioremap 0x40000000 4096 r₁.1.2) r₁.2).bind fun r₂ =>
          (exec idleCard (ioremap 1 0x1000000000 r₂.1.2) r₂.2).map fun r₃ =>
        (r₁.1.1, r₁.1.2, r₂.1.1, r₂.1.2, r₃.1.1)) =
      some (IO_ADDR_START, IO_ADDR_START + 8192, IO_ADDR_START + 8192, IO_ADDR_START + 12288, 0) := by
    decide +kernel
  obtain ⟨⟨⟨ret₁, b₁⟩, z₁⟩, he₁, hrun⟩ := Option.bind_eq_some_iff.mp hrun
  obtain ⟨⟨⟨ret₂, b₂⟩, z₂⟩, he₂, hrun⟩ := Option.bind_eq_some_iff.mp hrun
  obtain ⟨⟨⟨ret₃, b₃⟩, z₃⟩, he₃, hrun⟩ := Option.map_eq_some_iff.mp hrun
  simp only [Prod.mk.injEq] at hrun
  obtain ⟨rfl, rfl, rfl, rfl, rfl⟩ := hrun
  have hfirst : IoCall.Ok IO_ADDR_START ⟨0x30000000, 5000, IO_ADDR_START⟩ :=
    ⟨⟨by decide, by decide +kernel⟩, fun _ => ⟨by decide, by decide⟩⟩
  have hsecond : IoCall.Ok (IO_ADDR_START + 8192) ⟨0x40000000, 4096, IO_ADDR_START + 8192⟩ :=
    ⟨⟨by decide, by decide +kernel⟩, fun _ => ⟨by decide, by decide⟩⟩
  have hthird : IoCall.Ok (IO_ADDR_START + 12288) ⟨1, 0x1000000000, 0⟩ := by
    refine ⟨⟨by decide, by decide +kernel⟩, fun hroom => absurd hroom ?_⟩
    rw [IoCall.Room]
    decide +kernel
  have hr : IoRun idleCard IoCall.Ok ⟨booted, ()⟩ _ _ z₃ :=
    ((IoRun.nil.call hfirst he₁).call hsecond he₂).call hthird he₃
  have hm := (ioremap_maps ioReady_booted hr).1.maps
  exact ⟨_, z₃, hr, hm ⟨0x30000000, 5000, IO_ADDR_START⟩ (by simp) (by decide) 4999 (by decide),
    hm ⟨0x40000000, 4096, IO_ADDR_START + 8192⟩ (by simp) (by decide) 4095 (by decide)⟩

/-- The first call for a register inside a page: the address that is returned leads to the start of the page. -/
theorem ioremap_fails : ∃ (cs : List IoCall) (b : UInt64) (z₁ : Conf Memory Unit),
    IoReady booted ∧ IoRun idleCard IoCall.NoWrap ⟨booted, ()⟩ cs b z₁ ∧ ¬ IoMapped z₁.mem cs := by
  have hrun : (exec idleCard (ioremap 0x30000010 4 IO_ADDR_START) ⟨booted, ()⟩).map
      (fun r => (r.1.1, sv39 r.2.mem.ram PGDIR_VA (IO_ADDR_START + UInt64.ofNat 0))) =
      some (IO_ADDR_START, some 0x30000000) := by
    decide +kernel
  obtain ⟨⟨⟨ret, b⟩, z₁⟩, he, hret⟩ := Option.map_eq_some_iff.mp hrun
  obtain ⟨hret, hmap⟩ := Prod.mk.inj hret
  obtain rfl : ret = IO_ADDR_START := hret
  refine ⟨[⟨0x30000010, 4, IO_ADDR_START⟩], b, z₁, ioReady_booted,
    IoRun.nil.call ⟨by decide, by decide +kernel⟩ he, fun hm => ?_⟩
  have hbad := hm.maps _ (List.mem_singleton.mpr rfl) (by decide) 0 (by decide)
  exact absurd (hmap.symm.trans hbad) (by decide)

end OsLab.Mm
