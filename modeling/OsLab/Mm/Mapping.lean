import OsLab.Mm.Pages

/-!
# Mapping pages

The functions that set up mappings, over the invariant: a new table is entered where the tables lead for an
address (`pageTables_spec`), a new page is mapped there (`alloc_page_helper_spec`), and a page on the card comes
back to its entry (`swap_page_in_spec`).
-/

namespace OsLab.Mm

open Lib ProgM

variable {ρ ρ' : Roles} {s s' : Memory} {L : List UInt64} {pid : Int32}
    {role : Role} {kva d va : UInt64} {r : Ref} {p : PageNode}
  {i : Slot} {t : Option Slot}

/-! ### New tables -/

theorem Slotted.ext (h : Slotted ρ s pid r role) (hx : Ext ρ s ρ' s') : Slotted ρ' s' pid r role := by
  cases role with
  | stack => exact h
  | dir => exact h
  | mid v2 => exact ⟨hx.has _ _ _ h.1, h.2⟩
  | leaf v2 v1 => exact ⟨hx.has _ _ _ h.1, h.2⟩

theorem Slotted.blank {words : ℕ → UInt64} (h : Slotted ρ s pid r role) (hw : ∀ v < 512, words v = 0) :
    Blank s pid ρ words role := by
  cases role with
  | stack => exact trivial
  | dir => exact h.elim
  | mid v2 => exact hw
  | leaf v2 v1 => exact hw

/-- A node for a page of the kernel. -/
theorem create_PageNode_kernel : Partial s (create_PageNode kva kva d i t) fun _ s' =>
    s' = s.addKernel s.ram ⟨kva2pte s.ram kva (s.pgdir t), (s.pcb i).pid, kva, kva⟩ := by
  refine Partial.assert_bind fun _ => Partial.get_bind (Partial.assert_bind fun _ => ?_)
  rw [if_pos rfl]
  exact Partial.modify rfl

/-- A node for a page of a process. -/
theorem create_PageNode_user (hne : va ≠ kva) : Partial s (create_PageNode kva va d i t) fun _ s' => va ≠ 0 ∧
    s' = { s with user_page_mem_head := s.user_page_mem_head ++ [⟨uva2pte s.ram va d, (s.pcb i).pid, kva, va⟩] } := by
  refine Partial.assert_bind fun h0 => Partial.get_bind (Partial.assert_bind fun _ => ?_)
  rw [if_neg hne]
  exact Partial.modify ⟨h0, rfl⟩

theorem PAGE_PRESENT_lt : PAGE_PRESENT.toNat < 2 ^ 10 := by decide

/-- `newTable` makes a table of the role that its entry is for. -/
theorem newTable_spec : Partial s (newTable r i t) fun _ s' => Quiet s s' ∧ (Kept s' → ∀ ρ L, Inv ρ L s → ∀ role,
    Slotted ρ s (s.pcb i).pid r role → s.ram.load r = 0 → ∃ ρ', Inv ρ' L s' ∧ Ext ρ s ρ' s' ∧
      Has ρ' s' (s.pcb i).pid role (target (s'.ram.load r)) ∧ s'.ram.load r ≠ 0 ∧
      ∀ pid k, Has ρ s pid .dir k → k ≠ r.page → s'.ram k = s.ram k) := by
  refine alloc_kernel_page_takes.bind fun kva s₁ ht => create_PageNode_kernel.bind fun _ s₂ hs₂ => ?_
  subst hs₂
  refine Partial.modify_bind (Partial.modify ⟨?_, fun hk ρ L hI role hs h0 => ?_⟩)
  · exact IsTrans.trans _ _ _ ht.1 (.of_eq rfl rfl rfl rfl rfl rfl)
  · obtain ⟨hI₁, hx₁, hst, hpool⟩ := ht.2 hk ρ L hI
    have hs₁ := hs.ext hx₁
    obtain ⟨role', hh, hl⟩ := hs.has (k := r.page) (v := r.idx)
    have hkva := (hI₁.frames.taken kva (List.mem_cons_self ..)).isFrame
    have hne : r.page ≠ kva := hI₁.frames.has_ne_taken (hx₁.has _ _ _ hh) (List.mem_cons_self ..)
    have hr₁ : s₁.ram.load r = 0 := by
      rw [← h0, Ram.load, hst.2 r.page fun pid v2 v1 hh' => hl v2 v1 (hh.1.symm.trans hh'.1)]
      rfl
    have hpid : (s.pcb i).pid ≤ s₁.process_id := by
      obtain ⟨-, m, hm, -, hmp⟩ := hx₁.has _ _ _ hh
      rw [← hmp]
      exact hI₁.pids m (List.mem_append_left _ (List.mem_append_left _ hm))
    rw [← show (s₁.pcb i).pid = (s.pcb i).pid by rw [ht.1.pcb]] at hs₁ hpid ⊢
    have hram :
      ((s₁.ram.store r (mapEntry (s₁.ram.load r) kva PAGE_PRESENT)).fill kva NUM_PTE_ENTRY fun _ => 0).load
      r =
        mapEntry (s₁.ram.load r) kva PAGE_PRESENT :=
      (congrFun (Ram.fill_page _ _ _ hne) r.idx).trans (Ram.load_store _ _ _)
    have hnew : NewPage ρ s₁ kva role
      ((s₁.ram.store r (mapEntry (s₁.ram.load r) kva PAGE_PRESENT)).fill kva NUM_PTE_ENTRY fun _ => 0)
        ⟨kva2pte s₁.ram kva (s₁.pgdir t), (s₁.pcb i).pid, kva, kva⟩ := by
      refine ⟨rfl, rfl, hpid, hs₁.blank fun v hv => if_pos ⟨rfl, hv⟩, fun k hk v => ?_⟩
      rw [Ram.fill_page _ _ _ hk, Ram.store_apply]
      split
      · next he =>
        subst he
        exact Or.inr ⟨hr₁, target_mapEntry _ hkva PAGE_PRESENT_lt, hs₁⟩
      · exact Or.inl rfl
    obtain ⟨hI', hx', hh'⟩ := hI₁.newPage hnew hpool
    have htarget := target_mapEntry (s₁.ram.load r) hkva PAGE_PRESENT_lt
    rw [← hram] at htarget
    refine ⟨_, hI', hx₁.trans hx', htarget.symm ▸ hh', fun hz => ?_, fun pid k hk hne' => ?_⟩
    · have hp : Present (mapEntry (s₁.ram.load r) kva PAGE_PRESENT) := present_mapEntry _ _ (by decide)
      exact hp.ne_zero (hram.symm.trans hz)
    · have hk₁ := hI₁.frames.has_ne_taken (hx₁.has _ _ _ hk) (List.mem_cons_self ..)
      refine (Ram.fill_page _ _ _ hk₁).trans ((Ram.store_page _ _ _ hne').trans (hst.2 k fun pid' v2 v1 hh' => ?_))
      cases hk.1.symm.trans hh'.1

theorem uva2pte_masked (ram : Ram) (va d : UInt64) : uva2pte ram (va &&& VA_MASK) d = uva2pte ram va d := by
  simp only [uva2pte, vpn2_masked, vpn1_masked, vpn0_masked]

/-- `pageTables` returns the page of the first-level table where the tables now lead for the address. -/
theorem pageTables_spec : Partial s (pageTables va d i t) fun lv1 s' => Quiet s s' ∧ (Kept s' → ∀ ρ L, Inv ρ L s →
    Has ρ s (s.pcb i).pid .dir d → ∃ ρ', Inv ρ' L s' ∧ Ext ρ s ρ' s' ∧ s.ram PGDIR_VA (vpn2 va).toNat = 0 ∧
      uva2pte s'.ram va d = some ⟨lv1, (vpn0 va).toNat⟩) := by
  refine Partial.get_bind (Partial.assert_bind fun hk => ?_)
  -- the second-level table
  refine Partial.bind (q := fun _ s₁ =>
    Quiet s s₁ ∧ (Kept s₁ → ∀ ρ L, Inv ρ L s → Has ρ s (s.pcb i).pid .dir d → ∃ ρ₁, Inv ρ₁ L s₁ ∧
    Ext ρ s ρ₁ s₁ ∧ s₁.ram d (vpn2 va).toNat ≠ 0))
    (Partial.ite (fun h0 => ?_) fun h0 => ?_) fun _ s₁ h₁ => Partial.get_bind ?_
  · refine newTable_spec.mono fun _ s₁ hs => ⟨hs.1, fun hK ρ L hI hd => ?_⟩
    obtain ⟨ρ₁, hI₁, hx₁, -, hne, -⟩ := hs.2 hK ρ L hI (.mid (vpn2 va).toNat) ⟨hd, rfl⟩ h0
    exact ⟨ρ₁, hI₁, hx₁, hne⟩
  · exact Partial.pure ⟨Std.Refl.refl s, fun _ ρ L hI hd => ⟨ρ, hI, Ext.refl ρ s, h0⟩⟩
  -- the first-level table
  refine Partial.bind (q := fun _ s₂ =>
    Quiet s₁ s₂ ∧ (Kept s₂ → ∀ ρ L, Inv ρ L s₁ → Has ρ s₁ (s₁.pcb i).pid (.mid (vpn2 va).toNat)
    (target (s₁.ram d (vpn2 va).toNat)) →
    ∃ ρ₂, Inv ρ₂ L s₂ ∧ Ext ρ s₁ ρ₂ s₂ ∧ s₂.ram (target (s₁.ram d (vpn2 va).toNat)) (vpn1 va).toNat ≠ 0 ∧
      ∀ pid k, Has ρ s₁ pid .dir k → k ≠ target (s₁.ram d (vpn2 va).toNat) → s₂.ram k = s₁.ram k))
    (Partial.ite (fun h0 => ?_) fun h0 => ?_) fun _ s₂ h₂ => Partial.get_bind (Partial.pure ?_)
  · refine newTable_spec.mono fun _ s₂ hs => ⟨hs.1, fun hK ρ L hI hd => ?_⟩
    obtain ⟨ρ₂, hI₂, hx₂, -, hne, hsame⟩ := hs.2 hK ρ L hI (.leaf (vpn2 va).toNat (vpn1 va).toNat) ⟨hd, rfl⟩ h0
    exact ⟨ρ₂, hI₂, hx₂, hne, hsame⟩
  · exact Partial.pure ⟨Std.Refl.refl s₁, fun _ ρ L hI hd => ⟨ρ, hI, Ext.refl ρ s₁, h0, fun _ _ _ _ => rfl⟩⟩
  refine ⟨IsTrans.trans _ _ _ h₁.1 h₂.1, fun hK ρ L hI hd => ?_⟩
  obtain ⟨ρ₁, hI₁, hx₁, hne₁⟩ := h₁.2 (hK.of_subset h₂.1.log) ρ L hI hd
  have hd₁ := hx₁.has _ _ _ hd
  have hk₁ : s₁.ram PGDIR_VA (vpn2 va).toNat = 0 := by
    rw [hx₁.kernel_dir]
    exact hk
  have hmid := (hI₁.tables.dir _ d hd₁ _ (vpn2_lt va) hk₁).resolve_left hne₁
  rw [show (s.pcb i).pid = (s₁.pcb i).pid by rw [h₁.1.pcb]] at hmid
  obtain ⟨ρ₂, hI₂, hx₂, hne₂, hsame⟩ := h₂.2 hK ρ₁ L hI₁ hmid
  have hdir : s₂.ram d (vpn2 va).toNat = s₁.ram d (vpn2 va).toNat :=
    congrFun (hsame _ d hd₁ (hd₁.ne_role hmid.1 (by simp))) _
  refine ⟨ρ₂, hI₂, hx₁.trans hx₂, hk, ?_⟩
  rw [uva2pte_eq_some (by rw [hdir]; exact hne₁) (by rw [hdir]; exact hne₂), hdir]

/-- The pages that stay in memory were there before. -/
def Shrinks (s s' : Memory) : Prop := s'.user_page_mem_head ⊆ s.user_page_mem_head

instance : Std.Refl Shrinks := ⟨fun _ => List.Subset.refl _⟩

instance : IsTrans Memory Shrinks := ⟨fun _ _ _ h₁ h₂ => List.Subset.trans h₂ h₁⟩

theorem swap_page_out_shrinks : Keeps Shrinks swap_page_out := by
  refine fun s => swap_page_out_spec.mono fun _ s' hs => ?_
  obtain ⟨ram, p, ps, r, hs, -, -, rfl⟩ := hs
  exact fun q hq => (secondChance_perm _ hs).mem_iff.mpr (List.mem_cons_of_mem _ hq)

theorem handOut_shrinks (kva : UInt64) : Keeps Shrinks (handOut kva) := fun s =>
  (handOut_spec kva).mono fun _ s' hs => by
    obtain ⟨-, rfl⟩ := hs
    exact Std.Refl.refl (r := Shrinks) s

theorem alloc_user_page_shrinks : Keeps Shrinks alloc_user_page := by
  refine Keeps.read fun s => ?_
  split
  · exact swap_page_out_shrinks.bind fun _ => handOut_shrinks _
  · exact Keeps.bind (Keeps.modify fun _ => List.Subset.refl _) fun _ => handOut_shrinks _

/-- Two addresses in the same page. -/
def SamePage (a b : UInt64) : Prop := vpn2 a = vpn2 b ∧ vpn1 a = vpn1 b ∧ vpn0 a = vpn0 b

/-- The process has no shared page at an address. -/
def Private (pid : Int32) (va : UInt64) (s : Memory) : Prop := ∀ a ∈ s.attached, a.pid = pid → ¬ SamePage a.uva va

/-- The entry of an address belongs to the pages at that address only. -/
theorem Inv.samePage (h : Inv ρ L s) {q : PageNode}
    (hp : p ∈ s.user_page_mem_head ++ s.user_page_sd_head) (hq : Entry ρ s q)
    (he : p.pte_entry = q.pte_entry) : p.pid = q.pid ∧ SamePage p.uva q.uva := by
  obtain ⟨r, hr, hidx, hleaf⟩ := h.tables.entry_has (h.tables.entry p hp)
  obtain ⟨r', hr', hidx', hleaf'⟩ := h.tables.entry_has hq
  obtain rfl := Option.some.inj (hr.symm.trans (he.trans hr'))
  obtain ⟨hpid, hrole⟩ := h.frames.has_unique hleaf hleaf'
  obtain ⟨h2, h1⟩ := Role.leaf.inj hrole
  exact ⟨hpid, UInt64.toNat_inj.mp h2, UInt64.toNat_inj.mp h1, UInt64.toNat_inj.mp (hidx.symm.trans hidx')⟩

theorem Inv.clear (h : Inv ρ L s) {q : PageNode} (hq : Entry ρ s q)
    (hr : q.pte_entry = some r) (hn : Private q.pid q.uva s) : Clear r s := by
  intro p hp hs he
  obtain ⟨i, hu, ha⟩ := isShared_iff.mp hs
  obtain ⟨hpid, hsame⟩ := h.samePage (List.mem_append_left _ hp) hq (he.trans hr.symm)
  exact hn _ (h.sharing.node p hp i hu ha.symm) hpid hsame

theorem masked_lt (va : UInt64) : (va &&& VA_MASK).toNat < 2 ^ 39 := by
  rw [UInt64.toNat_and]
  exact Nat.lt_of_le_of_lt Nat.and_le_right (by decide)

theorem IsFrame.ne_masked (h : IsFrame kva) (va : UInt64) : va &&& VA_MASK ≠ kva := by
  obtain ⟨n, hn, rfl⟩ := h
  intro he
  have h1 := masked_lt va
  rw [he, toNat_kernelFrame hn] at h1
  omega

/-- `mapPage` adds the page `kva` at `va`. -/
theorem mapPage_spec {lv1 : UInt64} : Partial s (mapPage va kva lv1 i t) fun _ s' => IsFrame kva → va &&& VA_MASK ≠ 0 ∧
    s' = s.addUser ⟨uva2pte s.ram va (s.pcb i).pgdir, (s.pcb i).pid, kva, va &&& VA_MASK⟩ ⟨lv1, (vpn0 va).toNat⟩ := by
  by_cases hkva : IsFrame kva
  · refine Partial.get_bind ((create_PageNode_user (hkva.ne_masked va)).bind fun _ s₁ h₁ => Partial.modify fun _ => ?_)
    obtain ⟨h0, rfl⟩ := h₁
    rw [uva2pte_masked]
    exact ⟨h0, rfl⟩
  · exact fun _ _ _ _ _ _ h => absurd h hkva

theorem get_attribute_set_attribute (e bits : UInt64) : get_attribute (set_attribute e bits) bits = bits := by
  refine eq_of_wbit fun i _ => ?_
  simp only [get_attribute, set_attribute, wbit_and, wbit_or]
  cases wbit e i <;> simp

/-- A page of a process: `va` leads to the entry `r`, which is present, may be read, written, executed and used, and
leads to the page `kva`. -/
structure Mapped (s : Memory) (va pgdir kva : UInt64) (r : Ref) : Prop where
  entry : uva2pte s.ram va pgdir = some r
  attributes : get_attribute (s.ram.load r) PAGE_MAPPED = PAGE_MAPPED
  page : target (s.ram.load r) = kva

/-- `alloc_page_helper` gives the process a new page at `va`. -/
theorem alloc_page_helper_spec :
    Partial s (alloc_page_helper va d i t) fun kva s' => Quiet s s' ∧ (Kept s' → ∀ ρ, Inv ρ [] s →
    Has ρ s (s.pcb i).pid .dir d → (s.pcb i).pgdir = d →
    Private (s.pcb i).pid va s → ∃ ρ', Inv ρ' [] s' ∧ Ext ρ s ρ' s' ∧
      IsUserFrame kva ∧ ∃ r, Mapped s' va d kva r) := by
  refine pageTables_spec.bind fun lv1 s₁ h₁ => alloc_user_page_takes.bind fun kva s₂ h₂ => ?_
  obtain ⟨hq₁, h₁⟩ := h₁
  obtain ⟨hq₂, h₂⟩ := h₂
  refine (Partial.and (mapPage_quiet va kva lv1 s₂) mapPage_spec).bind fun _ s₃ h₃ => Partial.pure ?_
  obtain ⟨hq₃, h₃⟩ := h₃
  have hq := IsTrans.trans (r := Quiet) _ _ _ hq₁ hq₂
  refine ⟨IsTrans.trans _ _ _ hq hq₃, fun hK ρ hI hd hdir hpr => ?_⟩
  obtain ⟨ρ', hI₁, hx₁, hk, hw⟩ := h₁ (hK.of_subset fun _ hm => hq₃.log (hq₂.log hm)) ρ [] hI hd
  obtain ⟨hI₂, hx₂, -, hU⟩ := h₂ (hK.of_subset hq₃.log) ρ' [] hI₁
  have hpcb : s₂.pcb i = s.pcb i := by rw [hq.pcb]
  obtain ⟨-, rfl⟩ := h₃ hU.isFrame
  rw [hpcb, hdir] at *
  have hd₂ := hx₂.has _ _ _ (hx₁.has _ _ _ hd)
  have hk₁ : s₁.ram PGDIR_VA (vpn2 va).toNat = 0 := by
    rw [hx₁.kernel_dir]
    exact hk
  have hw₂ := hx₂.walk _ d va _ (hx₁.has _ _ _ hd) hk₁ hw
  have hentry : Entry ρ' s₂ ⟨uva2pte s₂.ram va d, (s.pcb i).pid, kva, va &&& VA_MASK⟩ := by
    refine ⟨d, _, hd₂, ?_, (uva2pte_masked _ _ _).trans hw₂, hw₂⟩
    rw [hx₂.kernel_dir, vpn2_masked]
    exact hk₁
  have hpriv : Private (s.pcb i).pid (va &&& VA_MASK) s₂ := by
    intro a ha hpid hsame
    simp only [SamePage, vpn2_masked, vpn1_masked, vpn0_masked] at hsame
    rw [hq.attached] at ha
    exact hpr a ha hpid hsame
  have hpid : (s.pcb i).pid ≤ s₂.process_id := by
    obtain ⟨-, m, hm, -, hmp⟩ := hd₂
    rw [← hmp]
    exact hI₂.pids m (List.mem_append_left _ (List.mem_append_left _ hm))
  obtain ⟨hI₃, hx₃⟩ := hI₂.newUser (q := ⟨uva2pte s₂.ram va d, (s.pcb i).pid, kva, va &&& VA_MASK⟩) hU hentry hw₂
    (masked_lt va) hpid (hI₂.clear hentry hw₂ hpriv)
  refine ⟨ρ', hI₃, (hx₁.trans hx₂).trans hx₃, hU, _, hx₃.walk _ d va _ hd₂ ?_ hw₂, ?_, ?_⟩
  · rw [hx₂.kernel_dir]
    exact hk₁
  · rw [Memory.addUser_ram, Ram.load_store, mapEntry, get_attribute_set_attribute]
  · rw [Memory.addUser_ram, Ram.load_store, target_mapEntry _ hU.isFrame PAGE_MAPPED_lt]

/-! ### Swapping in -/

/-- A page on the card is left out. -/
theorem Inv.dropSd (h : Inv ρ L s) {ps : List PageNode} (hp : ps.Sublist s.user_page_sd_head) :
    Inv ρ L { s with user_page_sd_head := ps } := by
  obtain ⟨hf, ht, hi, hs⟩ := h
  have hsub : ∀ p, p ∈ s.user_page_mem_head ++ ps → p ∈ s.user_page_mem_head ++ s.user_page_sd_head := by
    intro p
    simp only [List.mem_append]
    exact Or.imp_right (hp.subset ·)
  refine ⟨⟨hf.marked, hf.taken, hf.kernel, hf.apart, hf.user, hf.distinct,
    hf.kernel_uva, fun p h => hf.user_uva p (hsub p h), hf.pool,
    hf.fresh⟩, ⟨ht.dir, ht.mid, ht.leaf, fun p h => ht.entry p (hsub p h), ht.unique⟩, fun p h => hi p ?_,
    ⟨hs.count, hs.unused, hs.inj, hs.attached, hs.node, hs.nodup, hs.sole,
      fun p hm hsh q hq => hs.soleSd p hm hsh q (hp.subset hq), hs.page⟩⟩
  simp only [List.mem_append] at h ⊢
  exact h.imp_right (hp.subset ·)

/-- A page that is on the card is brought into memory. -/
theorem swap_page_in_spec (hp : p ∈ s.user_page_sd_head) :
    Partial s (swap_page_in p) fun _ s' => Quiet s s' ∧ (Kept s' → ∀ ρ, Inv ρ [] s →
    ∃ kva r, p.pte_entry = some r ∧ Inv ρ [] s' ∧ Ext ρ s ρ s' ∧
    IsUserFrame kva ∧ { p with addr := kva } ∈ s'.user_page_mem_head ∧
      ∃ e, s'.ram.load r = mapEntry e kva PAGE_MAPPED) := by
  refine (swap_page_in_quiet p s).and (Partial.assert_bind fun _ => Partial.modify_bind ?_)
  refine (Partial.and alloc_user_page_takes (alloc_user_page_shrinks _)).bind fun kva s₁ h₁ =>
    Partial.perform_bind fun words => ?_
  refine Partial.modify_bind ?_
  split
  · exact Partial.stop
  · next r hr =>
    refine Partial.modify_bind (Partial.modify fun hK ρ hI => ?_)
    obtain ⟨⟨hq₁, h₁⟩, hs₁⟩ := h₁
    have hx₀ : Ext ρ s ρ { s with user_page_sd_head := s.user_page_sd_head.erase p } :=
      ⟨fun _ _ _ h => h, fun _ _ _ _ _ _ h => h, rfl⟩
    obtain ⟨hI₁, hx₁, -, hU⟩ := h₁ hK ρ [] (hI.dropSd (List.erase_sublist ..))
    obtain ⟨hI₂, hx₂⟩ :=
      hI₁.write (g := fun ram => ram.fill kva NUM_PTE_ENTRY words) hU.isFrame hI₁.frames.taken_not_mem
      fun k hk => Ram.fill_page _ _ _ hk
    have hx := (hx₀.trans hx₁).trans hx₂
    have hentry := (hI.tables.entry p (List.mem_append_right _ hp)).ext hx
    have hc : Clear r s₁ := fun q hq hsh he => by
      have hsh' : s.isShared q.addr = true := by
        rw [← hsh, Memory.isShared, Memory.isShared, hq₁.shm_pages]
      exact hI.sharing.soleSd q (hs₁ hq) hsh' p hp (hr.trans he.symm)
    have hpid : p.pid ≤ s₁.process_id := by
      rw [hq₁.process_id]
      exact hI.pids p (List.mem_append_right _ hp)
    obtain ⟨hI₃, hx₃⟩ := hI₂.newUser (q := { p with addr := kva }) hU hentry hr
      (hI.frames.user_uva p (List.mem_append_right _ hp)) hpid hc
    refine ⟨kva, r, hr, hI₃, hx.trans hx₃, hU, List.mem_append_right _ (List.mem_singleton.mpr rfl),
      (s₁.ram.fill kva NUM_PTE_ENTRY words).load r, Ram.load_store _ _ _⟩

end OsLab.Mm
