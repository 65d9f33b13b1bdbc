import OsLab.Mm.Break
import OsLab.Mm.Mapping
import OsLab.Mm.Sv39

/-!
# Mapping one page

The page table of a process as positions: the directory, a second-level table for each entry of its user half, and a
first-level table for each entry of those. If the pages at different positions are different and marked in the bitmaps,
a frame that was free can be put at an empty position, or be entered in a first-level table, without a change for any
other page. `alloc_page_helper` does this, if there are as many free frames in the kernel's pool as it needs for tables;
otherwise it takes the frame of a page that it swaps out.
-/

namespace OsLab.Mm

open Lib ProgM

/-! ### Positions -/

/-- The page at a position of the page table `pgdir`. Entries from 256 on are the kernel's. -/
def tableAt (ram : Ram) (pgdir : UInt64) : Role → Option UInt64
  | .stack => none
  | .dir => some pgdir
  | .mid v2 => if v2 < 256 ∧ ram pgdir v2 ≠ 0 then some (target (ram pgdir v2)) else none
  | .leaf v2 v1 =>
    if v2 < 256 ∧ ram pgdir v2 ≠ 0 ∧ v1 < 512 ∧
      ram (target (ram pgdir v2)) v1 ≠ 0 then some (target (ram (target (ram pgdir v2)) v1))
    else none

/-- The tables are pairwise distinct frames that are marked as allocated. -/
structure DistinctTables (s : Memory) (pgdir : UInt64) : Prop where
  marked : ∀ role d, tableAt s.ram pgdir role = some d → Marked s d
  inj : ∀ role role' d, tableAt s.ram pgdir role = some d → tableAt s.ram pgdir role' = some d → role = role'

/-- The entry that maps the page of `va`, if it is mapped. -/
def entryOf (ram : Ram) (pgdir va : UInt64) : Option UInt64 :=
  (uva2pte ram va pgdir).bind fun r => if Present (ram.load r) then some (ram.load r) else none

/-- The position of the first-level table for `va`. -/
def leafOf (va : UInt64) : Role := .leaf (vpn2 va).toNat (vpn1 va).toNat

/-- An entry of a directory or second-level table where the page at a position is entered. -/
def TableSlot (ram : Ram) (pgdir : UInt64) (r : Ref) : Role → Prop
  | .mid v2 => v2 < 256 ∧ r = ⟨pgdir, v2⟩
  | .leaf v2 v1 => v1 < 512 ∧ tableAt ram pgdir (.mid v2) = some r.page ∧ r.idx = v1
  | _ => False

variable {s s' : Memory} {ram ram' : Ram} {pgdir kva va va' d e : UInt64} {r : Ref} {role : Role} {v2 v1 : ℕ}

theorem tableAt_mid_eq (h : tableAt ram pgdir (.mid v2) = some d) :
    v2 < 256 ∧ ram pgdir v2 ≠ 0 ∧ target (ram pgdir v2) = d := by
  rw [tableAt] at h
  split at h
  · next hc => exact ⟨hc.1, hc.2, Option.some.inj h⟩
  · cases h

theorem tableAt_leaf (h : tableAt ram pgdir (.mid v2) = some d) :
    tableAt ram pgdir (.leaf v2 v1) = if v1 < 512 ∧ ram d v1 ≠ 0 then some (target (ram d v1)) else none := by
  obtain ⟨hlt, hne, rfl⟩ := tableAt_mid_eq h
  simp only [tableAt, hlt, hne, true_and, ne_eq, not_false_eq_true]

theorem tableAt_leaf_none (h : tableAt ram pgdir (.mid v2) = none) : tableAt ram pgdir (.leaf v2 v1) = none := by
  simp only [tableAt] at h
  split at h
  · cases h
  · next hc => exact if_neg fun hc' => hc ⟨hc'.1, hc'.2.1⟩

/-- A walk as a position. -/
theorem uva2pte_eq_tableAt (hva : (vpn2 va).toNat < 256) :
    uva2pte ram va pgdir = (tableAt ram pgdir (leafOf va)).map fun d => ⟨d, (vpn0 va).toNat⟩ := by
  have h1 := vpn1_lt va
  by_cases h2 : ram pgdir (vpn2 va).toNat = 0
  · rw [uva2pte, if_pos h2, leafOf, tableAt, if_neg fun h => h.2.1 h2]
    rfl
  · by_cases h3 : ram (target (ram pgdir (vpn2 va).toNat)) (vpn1 va).toNat = 0
    · have hnone : tableAt ram pgdir (leafOf va) = none := if_neg fun h => h.2.2.2 h3
      rw [hnone, uva2pte, if_neg h2]
      exact if_pos h3
    · rw [uva2pte_eq_some h2 h3, leafOf, tableAt, if_pos ⟨hva, h2, h1, h3⟩]
      rfl

/-- The entries of a page table, by positions. -/
theorem entryOf_eq (hva : (vpn2 va).toNat < 256) : entryOf ram pgdir va =
    (tableAt ram pgdir (leafOf va)).bind fun d =>
    if Present (ram d (vpn0 va).toNat) then some (ram d (vpn0 va).toNat) else none := by
  rw [entryOf, uva2pte_eq_tableAt hva, Option.bind_map]
  rfl

/-- The positions depend on the directory and the second-level tables. -/
theorem tableAt_congr (hd : ram' pgdir = ram pgdir)
    (hm : ∀ v2 d, tableAt ram pgdir (.mid v2) = some d → ram' d = ram d) :
    tableAt ram' pgdir = tableAt ram pgdir := by
  have hmid : ∀ v2, tableAt ram' pgdir (.mid v2) = tableAt ram pgdir (.mid v2) := fun v2 => by rw [tableAt, hd, tableAt]
  funext role
  cases role with
  | stack => rfl
  | dir => rfl
  | mid v2 => exact hmid v2
  | leaf v2 v1 =>
    cases hc : tableAt ram pgdir (.mid v2) with
    | none => rw [tableAt_leaf_none hc, tableAt_leaf_none ((hmid v2).trans hc)]
    | some d => rw [tableAt_leaf hc, tableAt_leaf ((hmid v2).trans hc), hm v2 d hc]

/-! ### A new table -/

/-- The page of a slot is at a position of its own. -/
theorem TableSlot.page (hs : TableSlot ram pgdir r role) :
    ∃ role', tableAt ram pgdir role' = some r.page ∧ ∀ a b, role' ≠ .leaf a b := by
  cases role with
  | stack => exact hs.elim
  | dir => exact hs.elim
  | mid v2 => exact ⟨.dir, by rw [tableAt, hs.2], by simp⟩
  | leaf v2 v1 => exact ⟨_, hs.2.1, by simp⟩

/-- Nothing is at the position of an empty slot. -/
theorem TableSlot.none (hs : TableSlot ram pgdir r role) (h0 : ram.load r = 0) : tableAt ram pgdir role = none := by
  cases role with
  | stack => exact hs.elim
  | dir => exact hs.elim
  | mid v2 =>
    obtain ⟨-, rfl⟩ := hs
    exact if_neg fun h => h.2 h0
  | leaf v2 v1 =>
    obtain ⟨-, hm, rfl⟩ := hs
    rw [tableAt_leaf hm]
    exact if_neg fun h => h.2 h0

theorem present_ne_zero (kva : UInt64) : mapEntry e kva PAGE_PRESENT ≠ 0 :=
  (@present_mapEntry e kva PAGE_PRESENT (by decide)).ne_zero

/-- A frame that was free is at the position, all else is where it was. -/
theorem DistinctTables.link (h : DistinctTables s pgdir) (hf : IsFrame kva)
    (hn : ¬ Marked s kva) (hs : TableSlot s.ram pgdir r role)
    (h0 : s.ram.load r = 0) :
    tableAt (s.ram.link r kva) pgdir = Function.update (tableAt s.ram pgdir) role (some kva) := by
  have hne : ∀ {q d}, tableAt s.ram pgdir q = some d → d ≠ kva := by
    rintro q d hd rfl
    exact hn (h.marked _ _ hd)
  have hpg : pgdir ≠ kva := @hne .dir _ rfl
  have hkva : target (mapEntry (s.ram.load r) kva PAGE_PRESENT) = kva := target_mapEntry _ hf (by decide)
  have hnew : mapEntry (s.ram.load r) kva PAGE_PRESENT ≠ 0 := present_ne_zero kva
  have hnone := hs.none h0
  cases role with
  | stack => exact hs.elim
  | dir => exact hs.elim
  | mid v2 =>
    obtain ⟨hlt, rfl⟩ := hs
    have hmid : ∀ w, tableAt (s.ram.link ⟨pgdir, v2⟩ kva) pgdir (.mid w) =
        Function.update (tableAt s.ram pgdir) (.mid v2) (some kva) (.mid w) := by
      intro w
      by_cases hw : w = v2
      · subst hw
        rw [Function.update_self, tableAt, Ram.link_page hpg, if_pos rfl, if_pos ⟨hlt, hnew⟩, hkva]
      · rw [Function.update_of_ne (by simpa using hw), tableAt,
          Ram.link_page hpg, if_neg fun he => hw (Ref.mk.inj he).2, tableAt]
    funext role'
    cases role' with
    | stack => rfl
    | dir => rfl
    | mid w => exact hmid w
    | leaf w w1 =>
      rw [Function.update_of_ne (by simp)]
      by_cases hw : w = v2
      · subst hw
        rw [tableAt_leaf_none hnone, tableAt_leaf ((hmid w).trans (Function.update_self ..))]
        exact if_neg fun hc => hc.2 (Ram.link_self hc.1)
      · have hsame : tableAt (s.ram.link ⟨pgdir, v2⟩ kva) pgdir (.mid w) = tableAt s.ram pgdir (.mid w) :=
          (hmid w).trans (Function.update_of_ne (by simpa using hw) ..)
        cases hc : tableAt s.ram pgdir (.mid w) with
        | none => rw [tableAt_leaf_none hc, tableAt_leaf_none (hsame.trans hc)]
        | some t =>
          have ht : t ≠ pgdir := by
            rintro rfl
            exact nomatch h.inj _ .dir _ hc rfl
          rw [tableAt_leaf hc, tableAt_leaf (hsame.trans hc), Ram.link_page_of_ne (r := ⟨pgdir, v2⟩) (hne hc) ht]
  | leaf v2 v1 =>
    obtain ⟨hlt, hm, rfl⟩ := hs
    have ht : pgdir ≠ r.page := by
      rintro rfl
      exact nomatch h.inj _ .dir _ hm rfl
    have hmid : ∀ w, tableAt (s.ram.link r kva) pgdir (.mid w) = tableAt s.ram pgdir (.mid w) := by
      intro w
      rw [tableAt, Ram.link_page_of_ne hpg ht, tableAt]
    funext role'
    cases role' with
    | stack => rfl
    | dir => rfl
    | mid w => exact hmid w
    | leaf w w1 =>
      cases hc : tableAt s.ram pgdir (.mid w) with
      | none =>
        have hw : w ≠ v2 := by
          rintro rfl
          exact nomatch hm.symm.trans hc
        rw [tableAt_leaf_none ((hmid w).trans hc), Function.update_of_ne (by simp [hw]), tableAt_leaf_none hc]
      | some t =>
        rw [tableAt_leaf ((hmid w).trans hc), Ram.link_page (hne hc)]
        by_cases he : (⟨t, w1⟩ : Ref) = r
        · subst he
          obtain rfl := Role.mid.inj (h.inj _ _ _ hc hm)
          rw [if_pos rfl, if_pos ⟨hlt, hnew⟩, hkva, Function.update_self]
        · rw [if_neg he, Function.update_of_ne, tableAt_leaf hc]
          intro hrole
          obtain ⟨rfl, rfl⟩ := Role.leaf.inj hrole
          obtain rfl := Option.some.inj (hm.symm.trans hc)
          exact he rfl

/-- An empty table does not map anything. -/
theorem DistinctTables.entryOf_link (h : DistinctTables s pgdir)
    (hf : IsFrame kva) (hn : ¬ Marked s kva) (hs : TableSlot s.ram pgdir r role)
    (h0 : s.ram.load r = 0) (hva : (vpn2 va).toNat < 256) :
    entryOf (s.ram.link r kva) pgdir va = entryOf s.ram pgdir va := by
  rw [entryOf_eq hva, entryOf_eq hva, h.link hf hn hs h0]
  by_cases he : leafOf va = role
  · subst he
    rw [Function.update_self, hs.none h0, Option.bind_some, Ram.link_self (vpn0_lt va), if_neg not_present_zero]
    rfl
  · rw [Function.update_of_ne he]
    cases hc : tableAt s.ram pgdir (leafOf va) with
    | none => rfl
    | some d =>
      have hd : d ≠ kva := by
        rintro rfl
        exact hn (h.marked _ _ hc)
      have hpage : d ≠ r.page := by
        rintro rfl
        obtain ⟨role', hp, hl⟩ := hs.page
        exact hl _ _ (h.inj _ _ _ hp hc)
      simp only [Option.bind_some, Ram.link_page_of_ne hd hpage]

/-- The tables after a frame has been put at a position. -/
theorem DistinctTables.update (h : DistinctTables s pgdir) (hn : ¬ Marked s kva)
    (hm : ∀ d, Marked s d → Marked s' d) (hk : Marked s' kva)
    (ht : tableAt s'.ram pgdir = Function.update (tableAt s.ram pgdir) role (some kva)) : DistinctTables s' pgdir := by
  have hold : ∀ {role' d}, tableAt s'.ram pgdir role' = some d →
      role' = role ∧ d = kva ∨ d ≠ kva ∧ tableAt s.ram pgdir role' = some d := by
    intro role' d hd
    rw [ht] at hd
    by_cases he : role' = role
    · subst he
      rw [Function.update_self] at hd
      exact Or.inl ⟨rfl, (Option.some.inj hd).symm⟩
    · rw [Function.update_of_ne he] at hd
      refine Or.inr ⟨?_, hd⟩
      rintro rfl
      exact hn (h.marked _ _ hd)
  refine ⟨fun role' d hd => ?_, fun role₁ role₂ d h₁ h₂ => ?_⟩
  · rcases hold hd with ⟨-, rfl⟩ | ⟨-, hd⟩
    · exact hk
    · exact hm d (h.marked _ _ hd)
  · rcases hold h₁ with ⟨rfl, rfl⟩ | ⟨hne, h₁⟩
    · rcases hold h₂ with ⟨rfl, -⟩ | ⟨hne, -⟩
      · rfl
      · exact absurd rfl hne
    · rcases hold h₂ with ⟨-, rfl⟩ | ⟨-, h₂⟩
      · exact absurd rfl hne
      · exact h.inj _ _ _ h₁ h₂

/-! ### A new entry -/

/-- An entry of a first-level table is written. -/
theorem DistinctTables.store (h : DistinctTables s pgdir) (hd : tableAt s.ram pgdir (leafOf va) = some d) (e : UInt64) :
    tableAt (s.ram.store ⟨d, (vpn0 va).toNat⟩ e) pgdir = tableAt s.ram pgdir := by
  refine tableAt_congr (Ram.store_page _ _ _ ?_) fun v2 t ht => Ram.store_page _ _ _ ?_
  · rintro rfl
    exact nomatch h.inj _ .dir _ hd rfl
  · rintro rfl
    exact nomatch h.inj _ _ _ hd ht

/-- Other pages are mapped as before. -/
theorem DistinctTables.entryOf_store (h : DistinctTables s pgdir)
    (hd : tableAt s.ram pgdir (leafOf va) = some d) (e : UInt64)
    (hva' : (vpn2 va').toNat < 256) (hne : ¬ SameNumbers va va') :
    entryOf (s.ram.store ⟨d, (vpn0 va).toNat⟩ e) pgdir va' = entryOf s.ram pgdir va' := by
  rw [entryOf_eq hva', entryOf_eq hva', h.store hd e]
  cases hc : tableAt s.ram pgdir (leafOf va') with
  | none => rfl
  | some t =>
    have hsame : s.ram.store ⟨d, (vpn0 va).toNat⟩ e t (vpn0 va').toNat = s.ram t (vpn0 va').toNat := by
      rw [Ram.store_apply, if_neg]
      intro he
      obtain ⟨rfl, h0⟩ := Ref.mk.inj he
      obtain ⟨h2, h1⟩ := Role.leaf.inj (h.inj _ _ _ hc hd)
      exact hne ⟨UInt64.toNat_inj.mp h2, UInt64.toNat_inj.mp h1, UInt64.toNat_inj.mp h0⟩
    rw [Option.bind_some, Option.bind_some, hsame]

/-! ### `alloc_page_helper` -/

/-- At least `k` of the first `num` frames of a pool are free. -/
def HasFree (bitmap : ℕ → UInt8) (num k : ℕ) : Prop :=
  ∃ l : List ℕ, l.Nodup ∧ k ≤ l.length ∧ ∀ i ∈ l, i < num ∧ bit bitmap i = false

/-- How many tables for `va` are missing. -/
def missingTables (ram : Ram) (pgdir va : UInt64) : ℕ :=
  if ram pgdir (vpn2 va).toNat = 0 then 2 else if ram (target (ram pgdir (vpn2 va).toNat))
    (vpn1 va).toNat = 0 then 1 else 0

/-- How many nodes are in use. -/
def Memory.nodeCount (s : Memory) : ℕ :=
  s.kernel_page_head.length + s.user_page_mem_head.length + s.user_page_sd_head.length

/-- A page of a process that is not mapped, while `k` frames of the kernel's pool, a frame of the user pool,
and nodes for the page and the tables that are missing are free. -/
structure Unmapped (k : ℕ) (s : Memory) (va pgdir : UInt64) (i : Slot) : Prop where
  dir : (s.pcb i).pgdir = pgdir
  tables : DistinctTables s pgdir
  own : s.ram PGDIR_VA (vpn2 va).toNat = 0
  aligned : va.toNat % 4096 = 0
  pos : 0 < va.toNat
  bound : va.toNat < 2 ^ 38
  unmapped : entryOf s.ram pgdir va = none
  nodes : s.nodeCount + (1 + missingTables s.ram pgdir va) ≤ PageNode_MAXNUM
  kernel : HasFree s.kernel_bitmap FREE_KERNEL_PAGE_NUM k
  user : HasFree s.user_bitmap FREE_USER_PAGE_NUM 1

/-- The page of `va`, and no other, is mapped: to the frame `kva`, which was free. -/
structure MapsPage (s s' : Memory) (va pgdir kva : UInt64) (i : Slot) : Prop where
  free : ∃ n < FREE_USER_PAGE_NUM, kva = userFrame n ∧ bit s.user_bitmap n = false
  entry : ∃ r, uva2pte s'.ram va pgdir = some r ∧ get_pa (s'.ram.load r) = kva2pa kva ∧
    get_attribute (s'.ram.load r) PAGE_MAPPED = PAGE_MAPPED ∧
    s'.user_page_mem_head = s.user_page_mem_head ++ [⟨some r, (s.pcb i).pid, kva, va⟩]
  others : ∀ va' : UInt64, va'.toNat < 2 ^ 38 → va' >>> 12 ≠ va >>> 12 →
    entryOf s'.ram pgdir va' = entryOf s.ram pgdir va'
  tables : DistinctTables s' pgdir

variable {σ : Type} {h : Handler Op Op.Res σ} {z : Conf Memory σ}
    {i : Slot} {t : Option Slot} {n k num : ℕ} {bitmap : ℕ → UInt8}

/-! ### Free frames -/

/-- A search for a free frame finds one, and one less is free afterwards. -/
theorem HasFree.find (h : HasFree bitmap num (k + 1)) :
    ∃ n, find_free_pages bitmap num = some n ∧ n < num ∧ bit bitmap n = false ∧
    HasFree (mark_page_allocated n bitmap) num k := by
  obtain ⟨l, hl, hlen, hfree⟩ := h
  cases hn : find_free_pages bitmap num with
  | none =>
    have hlim : num ≤ 8 * NPAGES2BITMAPCH num := by
      unfold NPAGES2BITMAPCH
      split
      · omega
      · omega
    rw [find_free_pages, scan_eq hlim, firstClear_eq_none] at hn
    obtain ⟨i, hi⟩ := List.exists_mem_of_length_pos (show 0 < l.length by omega)
    have hset := hn i (hfree i hi).1
    rw [(hfree i hi).2] at hset
    cases hset
  | some n =>
    obtain ⟨hlt, hb⟩ := find_free_pages_eq_some hn
    refine ⟨n, rfl, hlt, hb, l.erase n, hl.erase n, ?_, fun i hi => ?_⟩
    · have := List.length_erase (a := n) (l := l)
      split at this
      · omega
      · omega
    · obtain ⟨hne, hi⟩ := hl.mem_erase_iff.mp hi
      refine ⟨(hfree i hi).1, ?_⟩
      rw [mark_page_allocated, bit_setBit, decide_eq_false hne, (hfree i hi).2]
      rfl

/-! ### A new table -/

/-- What a new table leaves: the frame `n` of the kernel's pool is linked at the entry `r` and has a node. -/
structure TableAdded (n : ℕ) (r : Ref) (s s' : Memory) : Prop where
  ram : s'.ram = s.ram.link r (kernelFrame n)
  kernel_bitmap : s'.kernel_bitmap = mark_page_allocated n s.kernel_bitmap
  user_bitmap : s'.user_bitmap = s.user_bitmap
  user_page_mem_head : s'.user_page_mem_head = s.user_page_mem_head
  pcb : s'.pcb = s.pcb
  nodeCount : s'.nodeCount = s.nodeCount + 1

theorem exec_assert {p : Prop} [Decidable p] (hp : p) : exec h (assert p) z = some ((), z) := by
  rw [assert, if_pos hp]
  rfl

theorem exec_create_kernel (hne : kva ≠ 0) (hc : z.mem.nodeCount < PageNode_MAXNUM) :
    exec h (create_PageNode kva kva d i t) z =
    some ((), ⟨z.mem.addKernel z.mem.ram ⟨kva2pte z.mem.ram kva (z.mem.pgdir t), (z.mem.pcb i).pid, kva, kva⟩,
      z.dev⟩) := by
  have hc' : z.mem.kernel_page_head.length + z.mem.user_page_mem_head.length +
    z.mem.user_page_sd_head.length < PageNode_MAXNUM := hc
  simp only [create_PageNode, exec_bind, exec_assert hne, exec_get, Option.bind_some, exec_assert hc']
  rfl

theorem exec_create_user (h0 : va ≠ 0) (hne : va ≠ kva) (hc : z.mem.nodeCount < PageNode_MAXNUM) :
    exec h (create_PageNode kva va d i t) z =
    some ((), ⟨{
      z.mem with user_page_mem_head :=
      z.mem.user_page_mem_head ++ [⟨uva2pte z.mem.ram va d, (z.mem.pcb i).pid, kva, va⟩] },
      z.dev⟩) := by
  have hc' : z.mem.kernel_page_head.length + z.mem.user_page_mem_head.length +
    z.mem.user_page_sd_head.length < PageNode_MAXNUM := hc
  simp only [create_PageNode, exec_bind, exec_assert h0, exec_get, Option.bind_some, exec_assert hc', if_neg hne]
  rfl

/-- A table that is needed is taken from the frames that are free. -/
theorem newTable_returns (hn : find_free_pages z.mem.kernel_bitmap FREE_KERNEL_PAGE_NUM = some n)
    (hlt : n < FREE_KERNEL_PAGE_NUM)
    (hc : z.mem.nodeCount < PageNode_MAXNUM) :
    Returns h z (newTable r i t) fun _ z' => TableAdded n r z.mem z'.mem := by
  have halloc : exec h alloc_kernel_page z = some (kernelFrame n, ⟨Memory.note
      { z.mem with kernel_bitmap := mark_page_allocated n z.mem.kernel_bitmap } (.handed (kernelFrame n)
        (z.mem.held (kernelFrame n)) (z.mem.isShared (kernelFrame n))), z.dev⟩) := by
    simp only [alloc_kernel_page, exec_bind, exec_get, Option.bind_some, hn]
    rfl
  have hne : kernelFrame n ≠ 0 := by
    intro h0
    have hto := toNat_kernelFrame (Nat.lt_of_lt_of_le hlt (Nat.le_add_right _ _) : n < FRAME_NUM)
    rw [h0] at hto
    exact absurd hto (by simp only [UInt64.toNat_zero]; omega)
  refine Returns.seq halloc (Returns.seq (exec_create_kernel hne hc)
    (Returns.modify_bind (Returns.of_exec rfl ⟨rfl, rfl, rfl, rfl, rfl, ?_⟩)))
  simp only [Memory.nodeCount, Memory.addKernel, Memory.note, Memory.putRam, List.length_append, List.length_singleton]
  omega

/-- Tables have been added, and nothing else has changed for the pages of the process. -/
structure Extends (k : ℕ) (s s' : Memory) (pgdir : UInt64) : Prop where
  tables : DistinctTables s' pgdir
  positions : ∀ role d, tableAt s.ram pgdir role = some d → tableAt s'.ram pgdir role = some d
  entries : ∀ va, (vpn2 va).toNat < 256 → entryOf s'.ram pgdir va = entryOf s.ram pgdir va
  user_bitmap : s'.user_bitmap = s.user_bitmap
  user_page_mem_head : s'.user_page_mem_head = s.user_page_mem_head
  pcb : s'.pcb = s.pcb
  nodeCount : s'.nodeCount ≤ s.nodeCount + k

theorem DistinctTables.refl (h : DistinctTables s pgdir) (k : ℕ) : Extends k s s pgdir :=
  ⟨h, fun _ _ h => h, fun _ _ => rfl, rfl, rfl, rfl, Nat.le_add_right _ _⟩

theorem Extends.trans {s'' : Memory} (h₁ : Extends k s s' pgdir) (h₂ : Extends n s' s'' pgdir) :
    Extends (k + n) s s'' pgdir :=
  ⟨h₂.tables, fun role d h => h₂.positions role d (h₁.positions role d h),
    fun va hva => (h₂.entries va hva).trans (h₁.entries va hva),
    h₂.user_bitmap.trans h₁.user_bitmap, h₂.user_page_mem_head.trans h₁.user_page_mem_head, h₂.pcb.trans h₁.pcb, by
      have := h₁.nodeCount
      have := h₂.nodeCount
      omega⟩

/-- The tables after a new one. -/
theorem TableAdded.tables (ha : TableAdded n r s s') (h : DistinctTables s pgdir) (hlt : n < FREE_KERNEL_PAGE_NUM)
    (hb : bit s.kernel_bitmap n = false) (hs : TableSlot s.ram pgdir r role) (h0 : s.ram.load r = 0) :
    Extends 1 s s' pgdir ∧
      tableAt s'.ram pgdir role = some (kernelFrame n) := by
  have hf : IsFrame (kernelFrame n) := isFrame_kernelFrame hlt
  have hn : ¬ Marked s (kernelFrame n) := by
    rw [marked_kernelFrame hlt, hb]
    exact Bool.false_ne_true
  have hlink := h.link hf hn hs h0
  rw [← ha.ram] at hlink
  refine ⟨⟨h.update hn (fun d hd => hd.mono (fun m hm => ?_) fun m hm => ?_)
    ((marked_kernelFrame hlt).mpr ?_) hlink, fun role' d hd => ?_,
    fun va hva => ?_, ha.user_bitmap, ha.user_page_mem_head, ha.pcb, Nat.le_of_eq ha.nodeCount⟩, ?_⟩
  · rw [ha.kernel_bitmap, mark_page_allocated, bit_setBit, hm, Bool.or_true]
  · rw [ha.user_bitmap]
    exact hm
  · rw [ha.kernel_bitmap, mark_page_allocated, bit_setBit, decide_eq_true rfl, Bool.true_or]
  · rw [hlink, Function.update_of_ne, hd]
    rintro rfl
    cases (hs.none h0).symm.trans hd
  · rw [ha.ram, h.entryOf_link hf hn hs h0 hva]
  · rw [hlink, Function.update_self]

/-- `pageTables` adds the tables that are missing. -/
theorem pageTables_returns (hu : Unmapped (missingTables z.mem.ram pgdir va) z.mem va pgdir i)
    (hva : (vpn2 va).toNat < 256) :
    Returns h z (pageTables va pgdir i t) fun lv1 z' => Extends (missingTables z.mem.ram pgdir va) z.mem z'.mem pgdir ∧
      tableAt z'.mem.ram pgdir (leafOf va) = some lv1 := by
  have hnodes := hu.nodes
  refine Returns.get_bind (Returns.seq (exec_assert hu.own) ?_)
  -- the second-level table
  refine Returns.bind (q := fun _ z₁ => ∃ n₁ n₂,
    n₁ + n₂ = missingTables z.mem.ram pgdir va ∧ Extends n₁ z.mem z₁.mem pgdir ∧
    tableAt z₁.mem.ram pgdir (.mid (vpn2 va).toNat) = some (target (z₁.mem.ram pgdir (vpn2 va).toNat)) ∧
    HasFree z₁.mem.kernel_bitmap FREE_KERNEL_PAGE_NUM n₂ ∧
    (z₁.mem.ram (target (z₁.mem.ram pgdir (vpn2 va).toNat)) (vpn1 va).toNat = 0 → n₂ = 1)) ?_ fun _ z₁ h₁ =>
    Returns.get_bind ?_
  · by_cases h0 : z.mem.ram pgdir (vpn2 va).toNat = 0
    · have hfree := hu.kernel
      have htwo : missingTables z.mem.ram pgdir va = 2 := if_pos h0
      rw [htwo] at hfree hnodes
      obtain ⟨n, hn, hlt, hb, hrest⟩ := hfree.find
      rw [ifThen, if_pos h0]
      refine (newTable_returns hn hlt (by omega)).mono fun _ z₁ ha => ?_
      have hslot : TableSlot z.mem.ram pgdir ⟨pgdir, (vpn2 va).toNat⟩ (.mid (vpn2 va).toNat) := ⟨hva, rfl⟩
      obtain ⟨hx, hat⟩ := ha.tables hu.tables hlt hb hslot h0
      obtain ⟨-, -, htarget⟩ := tableAt_mid_eq hat
      exact ⟨1, 1, htwo.symm, hx, htarget.symm ▸ hat, ha.kernel_bitmap ▸ hrest, fun _ => rfl⟩
    · rw [ifThen, if_neg h0]
      refine Returns.pure ⟨0, _, Nat.zero_add _, hu.tables.refl 0, if_pos ⟨hva, h0⟩, hu.kernel, fun h1 => ?_⟩
      rw [missingTables, if_neg h0, if_pos h1]
  obtain ⟨n₁, n₂, hsum, hx₁, hmid, hfree, hone⟩ := h₁
  have hcount := hx₁.nodeCount
  rw [← hsum] at hnodes ⊢
  -- the first-level table
  generalize hlv2 : target (z₁.mem.ram pgdir (vpn2 va).toNat) = lv2 at hmid hone ⊢
  refine Returns.bind (q := fun _ z₂ => Extends n₂ z₁.mem z₂.mem pgdir ∧ z₂.mem.ram lv2 (vpn1 va).toNat ≠ 0)
      ?_ fun _ z₂ h₂ =>
    Returns.get_bind (Returns.pure ?_)
  · by_cases h0 : z₁.mem.ram lv2 (vpn1 va).toNat = 0
    · obtain rfl := hone h0
      obtain ⟨n, hn, hlt, hb, -⟩ := hfree.find
      rw [ifThen, if_pos h0]
      refine (newTable_returns hn hlt (by omega)).mono fun _ z₂ ha => ?_
      have hslot : TableSlot z₁.mem.ram pgdir ⟨lv2, (vpn1 va).toNat⟩ (leafOf va) := ⟨vpn1_lt va, hmid, rfl⟩
      obtain ⟨hx₂, hat⟩ := ha.tables hx₁.tables hlt hb hslot h0
      rw [leafOf, tableAt_leaf (hx₂.positions _ _ hmid)] at hat
      split at hat
      · next hc => exact ⟨hx₂, hc.2⟩
      · cases hat
    · rw [ifThen, if_neg h0]
      exact Returns.pure ⟨hx₁.tables.refl n₂, h0⟩
  obtain ⟨hx₂, hne⟩ := h₂
  refine ⟨hx₁.trans hx₂, ?_⟩
  rw [leafOf, tableAt_leaf (hx₂.positions _ _ hmid)]
  exact if_pos ⟨vpn1_lt va, hne⟩

/-! ### The page -/

theorem masked_eq (hva : va.toNat < 2 ^ 39) : va &&& VA_MASK = va := by
  refine eq_of_wbit fun i _ => ?_
  rw [wbit_and, wbit_VA_MASK]
  by_cases hi : i < 39
  · rw [decide_eq_true hi, Bool.and_true]
  · rw [wbit_of_toNat_lt hva (by omega), Bool.false_and]

theorem canonical_user (hva : va.toNat < 2 ^ 38) : Canonical va := by
  refine Or.inl (UInt64.toNat_inj.mp ?_)
  rw [UInt64.toNat_shiftRight, Nat.shiftRight_eq_div_pow]
  exact Nat.div_eq_of_lt hva

theorem vpn2_user (hva : va.toNat < 2 ^ 38) : (vpn2 va).toNat < 256 := by
  rw [toNat_vpn2]
  omega

theorem get_pa_mapEntry (hf : IsFrame kva) (e : UInt64) : get_pa (mapEntry e kva PAGE_MAPPED) = kva2pa kva := by
  have ht := target_mapEntry e hf PAGE_MAPPED_lt
  rw [target, pa2kva] at ht
  have hsub := UInt64.add_sub_cancel (get_pa (mapEntry e kva PAGE_MAPPED)) 0xffffffc000000000
  rw [ht] at hsub
  exact hsub.symm

/-- The page is entered in its first-level table. -/
theorem DistinctTables.mapsPage (ht : DistinctTables s pgdir)
    (hleaf : tableAt s.ram pgdir (leafOf va) = some d) (hva : va.toNat < 2 ^ 38)
    (hlt : n < FREE_USER_PAGE_NUM) (hb : bit s.user_bitmap n = false) (q : PageNode)
    (hq : q = ⟨some ⟨d, (vpn0 va).toNat⟩, (s.pcb i).pid, userFrame n, va⟩)
    (hram : s'.ram = s.ram.store ⟨d, (vpn0 va).toNat⟩ (mapEntry e (userFrame n) PAGE_MAPPED))
    (hk : s'.kernel_bitmap = s.kernel_bitmap)
    (hu : s'.user_bitmap = mark_page_allocated n s.user_bitmap)
    (hl : s'.user_page_mem_head = s.user_page_mem_head ++ [q]) :
    MapsPage s s' va pgdir (userFrame n) i := by
  subst hq
  have htab : tableAt s'.ram pgdir = tableAt s.ram pgdir := by
    rw [hram]
    exact ht.store hleaf _
  have hload : s'.ram.load ⟨d, (vpn0 va).toNat⟩ = mapEntry e (userFrame n) PAGE_MAPPED := by
    rw [hram]
    exact Ram.load_store _ _ _
  refine ⟨⟨n, hlt, rfl, hb⟩, ⟨⟨d, (vpn0 va).toNat⟩, ?_, ?_, ?_, hl⟩,
    fun va' hva' hne => ?_, fun role d hd => ?_, fun role role' d hd hd' => ?_⟩
  · rw [uva2pte_eq_tableAt (vpn2_user hva), htab, hleaf]
    rfl
  · rw [hload, get_pa_mapEntry (isFrame_userFrame hlt)]
  · rw [hload, mapEntry, get_attribute_set_attribute]
  · rw [hram]
    exact ht.entryOf_store hleaf _ (vpn2_user hva') fun hs => hne (hs.shift (canonical_user hva) (canonical_user hva'))
  · rw [htab] at hd
    refine (ht.marked role d hd).mono (fun m hm => hk ▸ hm) fun m hm => ?_
    rw [hu, mark_page_allocated, bit_setBit, hm, Bool.or_true]
  · rw [htab] at hd hd'
    exact ht.inj role role' d hd hd'

theorem exec_alloc_user (hn : find_free_pages z.mem.user_bitmap FREE_USER_PAGE_NUM = some n) :
    exec h alloc_user_page z =
    some (userFrame n, ⟨Memory.note { z.mem with user_bitmap := mark_page_allocated n z.mem.user_bitmap }
      (.handed (userFrame n) (z.mem.held (userFrame n)) (z.mem.isShared (userFrame n))), z.dev⟩) := by
  simp only [alloc_user_page, exec_bind, exec_get, Option.bind_some, hn]
  rfl

theorem exec_mapPage (h0 : va ≠ 0) (hva : va.toNat < 2 ^ 39) (hne : va ≠ kva) (hc : z.mem.nodeCount < PageNode_MAXNUM) :
    exec h (mapPage va kva d i t) z =
    some ((), ⟨z.mem.addUser ⟨uva2pte z.mem.ram va (z.mem.pcb i).pgdir, (z.mem.pcb i).pid, kva, va⟩
      ⟨d, (vpn0 va).toNat⟩, z.dev⟩) := by
  simp only [mapPage, exec_bind, exec_get, Option.bind_some, masked_eq hva, exec_create_user h0 hne hc]
  rfl

/-- What has been added before does not matter. -/
theorem Extends.mapsPage {s'' : Memory} (hx : Extends k s s' pgdir) (hm : MapsPage s' s'' va pgdir kva i) :
    MapsPage s s'' va pgdir kva i := by
  obtain ⟨hfree, hentry, hothers, htables⟩ := hm
  rw [hx.user_bitmap] at hfree
  rw [hx.pcb, hx.user_page_mem_head] at hentry
  exact ⟨hfree, hentry, fun va' hva' hne => (hothers va' hva' hne).trans (hx.entries va' (vpn2_user hva')), htables⟩

/-- **Mapping a page.** The three page numbers are the digits of an address. With as many free frames in the
kernel's pool as tables are missing, a free frame in the user pool, and free nodes for them all,
`alloc_page_helper` maps the page, and that page only. -/
theorem alloc_page_helper_maps :
    (∀ va : UInt64, va.toNat < 2 ^ 39 → (vpn2 va).toNat = va.toNat / 2 ^ 30 ∧
      (vpn1 va).toNat = va.toNat / 2 ^ 21 % 2 ^ 9 ∧
      (vpn0 va).toNat = va.toNat / 2 ^ 12 % 2 ^ 9) ∧
    ∀ {σ : Type} (h : Handler Op Op.Res σ) (z : Conf Memory σ) (va pgdir : UInt64) (i : Slot) (t : Option Slot),
      Unmapped (missingTables z.mem.ram pgdir va) z.mem va pgdir i →
        Returns h z (alloc_page_helper va pgdir i t) fun kva z' => MapsPage z.mem z'.mem va pgdir kva i := by
  refine ⟨fun va hva => ⟨?_, toNat_vpn1 va, toNat_vpn0 va⟩, fun h z va pgdir i t hu => ?_⟩
  · rw [toNat_vpn2]
    omega
  refine (pageTables_returns hu (vpn2_user hu.bound)).bind fun lv1 z₁ h₁ => ?_
  obtain ⟨hx, hleaf⟩ := h₁
  have hfree := hu.user
  rw [← hx.user_bitmap] at hfree
  obtain ⟨n, hn, hlt, hb, -⟩ := hfree.find
  have hpcb : (z₁.mem.pcb i).pgdir = pgdir := by rw [hx.pcb, hu.dir]
  have hcount : z₁.mem.nodeCount < PageNode_MAXNUM := by
    have := hx.nodeCount
    have := hu.nodes
    omega
  have hbound := hu.bound
  have h0 : va ≠ 0 := by
    rintro rfl
    exact absurd hu.pos (by decide)
  have hne : va ≠ userFrame n := by
    intro he
    have hto := congrArg UInt64.toNat he
    rw [userFrame_eq hlt, toNat_kernelFrame (Nat.add_lt_add_left hlt _)] at hto
    omega
  refine Returns.seq (exec_alloc_user hn) (Returns.seq (exec_mapPage h0 (by omega) hne hcount) (Returns.pure ?_))
  refine hx.mapsPage (hx.tables.mapsPage hleaf hbound hlt hb _ ?_ rfl rfl rfl rfl)
  show (⟨uva2pte z₁.mem.ram va (z₁.mem.pcb i).pgdir, _, _, _⟩ : PageNode) = _
  rw [hpcb, uva2pte_eq_tableAt (vpn2_user hbound), hleaf]
  rfl

/-! ### One page -/

/-- A page table with a page at `0x1000`. -/
def onePageRam : Ram := fun kva k =>
  if kva = kernelFrame 5 ∧ k = 0 then mapEntry 0 (kernelFrame 6) PAGE_PRESENT
  else if kva = kernelFrame 6 ∧ k = 0 then mapEntry 0 (kernelFrame 7) PAGE_PRESENT
  else if kva = kernelFrame 7 ∧ k = 1 then mapEntry 0 (userFrame 0) PAGE_MAPPED
  else 0

/-- One process, with pid 1, that has this page table, for a bitmap of the kernel's pool. -/
def onePage (kernel_bitmap : ℕ → UInt8) : Memory where
  ram := onePageRam
  kernel_bitmap := kernel_bitmap
  user_bitmap := Function.update (fun _ => 0) 0 1
  kernel_page_head := [⟨none, 1, kernelFrame 4, kernelFrame 4⟩,
    ⟨none, 1, kernelFrame 5, kernelFrame 5⟩, ⟨none, 1, kernelFrame 6, kernelFrame 6⟩,
    ⟨none, 1, kernelFrame 7, kernelFrame 7⟩]
  user_page_mem_head := [⟨some ⟨kernelFrame 7, 1⟩, 1, userFrame 0, 0x1000⟩]
  user_page_sd_head := []
  sd_sector_end := 200
  pcb i := ⟨1, i != 0, kernelFrame 5, USER_STACK_ADDR, kernelFrame 5, 0, 0x20000⟩
  process_id := 1
  tasks := []
  shm_pages _ := ⟨0, false, 0, 0⟩
  userMemCurr := USER_STACK_ADDR
  attached := []
  log := []

theorem tableAt_onePage (h : tableAt onePageRam (kernelFrame 5) role = some d) :
    role = .dir ∧ d = kernelFrame 5 ∨ role = .mid 0 ∧ d = kernelFrame 6 ∨ role = .leaf 0 0 ∧ d = kernelFrame 7 := by
  have hdir : ∀ k, k ≠ 0 → onePageRam (kernelFrame 5) k = 0 := by
    intro k hk
    rw [onePageRam, if_neg fun h => hk h.2, if_neg fun h => hk h.2, if_neg fun h => absurd h.1 (by decide)]
  have hmid : ∀ k, k ≠ 0 → onePageRam (kernelFrame 6) k = 0 := by
    intro k hk
    rw [onePageRam, if_neg fun h => hk h.2, if_neg fun h => hk h.2, if_neg fun h => absurd h.1 (by decide)]
  have h6 : target (onePageRam (kernelFrame 5) 0) = kernelFrame 6 := by
    show target (mapEntry 0 (kernelFrame 6) PAGE_PRESENT) = _
    decide
  have h7 : target (onePageRam (kernelFrame 6) 0) = kernelFrame 7 := by
    show target (mapEntry 0 (kernelFrame 7) PAGE_PRESENT) = _
    decide
  have hm : ∀ {w t}, tableAt onePageRam (kernelFrame 5) (.mid w) = some t → w = 0 ∧ t = kernelFrame 6 := by
    intro w t hw
    obtain ⟨-, hne, rfl⟩ := tableAt_mid_eq hw
    have h0 : w = 0 := by_contra fun hc => hne (hdir w hc)
    subst h0
    exact ⟨rfl, h6⟩
  cases role with
  | stack => cases h
  | dir => exact Or.inl ⟨rfl, (Option.some.inj h).symm⟩
  | mid w =>
    obtain ⟨rfl, rfl⟩ := hm h
    exact Or.inr (Or.inl ⟨rfl, rfl⟩)
  | leaf w w1 =>
    cases hc : tableAt onePageRam (kernelFrame 5) (.mid w) with
    | none => exact nomatch (tableAt_leaf_none hc).symm.trans h
    | some t =>
      obtain ⟨rfl, rfl⟩ := hm hc
      rw [tableAt_leaf hc] at h
      split at h
      · next hne =>
        have h0 : w1 = 0 := by_contra fun hc => hne.2 (hmid w1 hc)
        subst h0
        exact Or.inr (Or.inr ⟨rfl, (Option.some.inj h).symm.trans h7⟩)
      · cases h

/-- The page at `0x40000000` is not mapped, and two tables are missing. -/
theorem unmapped_onePage {kb : ℕ → UInt8} (hkb : ∀ n, 5 ≤ n → n ≤ 7 → bit kb n = true)
    (hk : HasFree kb FREE_KERNEL_PAGE_NUM k) :
    Unmapped k (onePage kb) 0x40000000 (kernelFrame 5) 0 := by
  have hmarked : ∀ n, 5 ≤ n → n ≤ 7 → Marked (onePage kb) (kernelFrame n) := fun n h5 h7 =>
    (marked_kernelFrame (Nat.lt_of_le_of_lt h7 (by decide))).mpr (hkb n h5 h7)
  have hnodes : (onePage kb).nodeCount +
      (1 + missingTables (onePage kb).ram (kernelFrame 5) 0x40000000) ≤ PageNode_MAXNUM := by
    have hle : missingTables (onePage kb).ram (kernelFrame 5) 0x40000000 ≤ 2 := by
      unfold missingTables
      split
      · exact Nat.le_refl 2
      · split <;> decide
    calc (onePage kb).nodeCount + (1 + missingTables (onePage kb).ram (kernelFrame 5) 0x40000000) ≤ 5 + (1 + 2) :=
          Nat.add_le_add_left (Nat.add_le_add_left hle 1) 5
      _ ≤ PageNode_MAXNUM := by decide
  refine ⟨rfl, ⟨fun role d hd => ?_, fun role role' d hd hd' => ?_⟩, rfl, by decide, by decide, by decide, rfl, hnodes,
    hk, [1], List.nodup_singleton 1, Nat.le_refl 1, fun n hn => ?_⟩
  · obtain ⟨-, rfl⟩ | ⟨-, rfl⟩ | ⟨-, rfl⟩ := tableAt_onePage hd
    · exact hmarked 5 (by decide) (by decide)
    · exact hmarked 6 (by decide) (by decide)
    · exact hmarked 7 (by decide) (by decide)
  · obtain ⟨rfl, rfl⟩ | ⟨rfl, rfl⟩ | ⟨rfl, rfl⟩ := tableAt_onePage hd
    · obtain ⟨rfl, -⟩ | ⟨-, h⟩ | ⟨-, h⟩ := tableAt_onePage hd'
      · rfl
      · exact absurd h (by decide)
      · exact absurd h (by decide)
    · obtain ⟨-, h⟩ | ⟨rfl, -⟩ | ⟨-, h⟩ := tableAt_onePage hd'
      · exact absurd h (by decide)
      · rfl
      · exact absurd h (by decide)
    · obtain ⟨-, h⟩ | ⟨-, h⟩ | ⟨rfl, -⟩ := tableAt_onePage hd'
      · exact absurd h (by decide)
      · exact absurd h (by decide)
      · rfl
  · obtain rfl := List.mem_singleton.mp hn
    have hfree : bit (Function.update (fun _ => 0) 0 1) 1 = false := by decide
    exact ⟨by decide, hfree⟩

/-- Two frames are free for the two tables. -/
theorem alloc_page_helper_maps_onePage :
    Returns idleCard ⟨onePage fun n => if n = 0 then 0xff else 0, ()⟩
    (alloc_page_helper 0x40000000 (kernelFrame 5) 0 (some 0)) fun kva z' =>
      MapsPage (onePage fun n => if n = 0 then 0xff else 0) z'.mem 0x40000000 (kernelFrame 5) kva 0 := by
  refine alloc_page_helper_maps.2 idleCard ⟨onePage fun n => if n = 0 then 0xff else 0,
    ()⟩ 0x40000000 (kernelFrame 5) 0 (some 0)
    (unmapped_onePage (fun n h5 h7 => ?_) ⟨[8, 9], by decide, by decide +kernel, fun n hn => ?_⟩)
  · obtain rfl | rfl | rfl : n = 5 ∨ n = 6 ∨ n = 7 := by omega
    · decide
    · decide
    · decide
  · simp only [List.mem_cons, List.not_mem_nil, or_false] at hn
    obtain rfl | rfl := hn
    · exact ⟨by decide, by decide⟩
    · exact ⟨by decide, by decide⟩

/-- One frame is free and two tables are needed: the page at `0x1000` of the same process is swapped out for
the second. -/
theorem alloc_page_helper_swaps : ∃ (z : Conf Memory Unit) (va pgdir : UInt64) (i : Slot), Unmapped 1 z.mem va pgdir i ∧
    ¬ Returns idleCard z (alloc_page_helper va pgdir i (some i)) fun kva z' =>
    MapsPage z.mem z'.mem va pgdir kva i := by
  have hrun : (exec idleCard (alloc_page_helper 0x40000000 (kernelFrame 5) 0 (some 0))
    ⟨onePage fun n => if n = 1 then 0xfe else 0xff, ()⟩).map
      (fun r => entryOf r.2.mem.ram (kernelFrame 5) 0x1000) = some none := by
    decide +kernel
  refine ⟨⟨onePage fun n => if n = 1 then 0xfe else 0xff, ()⟩, 0x40000000, kernelFrame 5, 0,
    unmapped_onePage (fun n h5 h7 => ?_) ⟨[8], List.nodup_singleton 8, Nat.le_refl 1, fun n hn => ?_⟩, ?_⟩
  · obtain rfl | rfl | rfl : n = 5 ∨ n = 6 ∨ n = 7 := by omega
    · decide
    · decide
    · decide
  · obtain rfl := List.mem_singleton.mp hn
    exact ⟨by decide, by decide⟩
  · rintro ⟨kva, z', he, hm⟩
    rw [he, Option.map_some] at hrun
    have hsame := hm.others 0x1000 (by decide) (by decide)
    have hbefore : entryOf (onePage fun n => if n = 1 then 0xfe else 0xff).ram (kernelFrame 5) 0x1000 =
        some (mapEntry 0 (userFrame 0) PAGE_MAPPED) := by
      decide +kernel
    exact absurd ((Option.some.inj hrun).symm.trans (hsame.trans hbefore)) (by simp)

end OsLab.Mm
