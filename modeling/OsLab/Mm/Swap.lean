import OsLab.Mm.Tables

/-!
# Taking frames

A frame comes from a bitmap or, when the pool is exhausted, from a user page that is swapped out. Either way it
is then marked, and no node has it: it is one of the frames set aside (`swap_page_out_takes`,
`alloc_kernel_page_takes`, `alloc_user_page_takes`).
-/

namespace OsLab.Mm

open Lib ProgM

variable {ρ ρ' : Roles} {s s' : Memory} {L : List UInt64} {pid : Int32}
    {role : Role} {kva d f va : UInt64} {r : Ref} {p : PageNode}

/-! ### The second-chance loop -/

/-- The order of the user pages does not matter. -/
theorem Inv.perm (h : Inv ρ L s) {ps : List PageNode} (hp : s.user_page_mem_head.Perm ps) :
    Inv ρ L { s with user_page_mem_head := ps } := by
  obtain ⟨hf, ht, hi, hs⟩ := h
  have hmem : ∀ p, p ∈ ps → p ∈ s.user_page_mem_head := fun p h => hp.mem_iff.mpr h
  have hsd : ∀ p, p ∈ ps ++ s.user_page_sd_head → p ∈ s.user_page_mem_head ++ s.user_page_sd_head := by
    intro p
    simp only [List.mem_append, ← hp.mem_iff]
    exact fun h => h
  refine ⟨⟨fun p h => hf.marked p ?_, hf.taken, hf.kernel,
    fun p h => hf.apart p (hmem p h), fun p h => hf.user p (hmem p h), ?_,
    hf.kernel_uva, fun p h => hf.user_uva p (hsd p h), hf.pool, hf.fresh⟩,
    ⟨ht.dir, ht.mid, fun pid v2 v1 d hd v hv hpr => ?_,
    fun p h => ht.entry p (hsd p h), ht.unique⟩, fun p h => hi p ?_, ⟨hs.count, hs.unused, hs.inj, fun a ha => ?_,
    fun p h => hs.node p (hmem p h), hs.nodup, ?_, fun p h => hs.soleSd p (hmem p h), hs.page⟩⟩
  · simp only [List.mem_append] at h ⊢
    exact h.imp_right (hmem p)
  · refine (hp.pairwise_iff fun {a b} hab he => ?_).mp hf.distinct
    have := hab he.symm
    rwa [he]
  · obtain ⟨q, hq, h⟩ := ht.leaf pid v2 v1 d hd v hv hpr
    exact ⟨q, hp.mem_iff.mp hq, h⟩
  · simp only [List.mem_append] at h ⊢
    exact h.imp_left (Or.imp_right (hmem p))
  · obtain ⟨hu, q, hq, h⟩ := hs.attached a ha
    exact ⟨hu, q, hp.mem_iff.mp hq, h⟩
  · exact (hp.pairwise_iff fun {a b} hab hor => (hab hor.symm).symm).mp hs.sole

theorem attribute_lt : (PAGE_ACCESSED ||| PAGE_DIRTY).toNat < 2 ^ 10 := by decide

theorem wbit_attribute : wbit (PAGE_ACCESSED ||| PAGE_DIRTY) 0 = false := by decide

/-- The loop turns the list. -/
theorem secondChance_perm (fuel : ℕ) {ram ram' : Ram} {qs ps : List PageNode}
    (h : secondChance fuel ram qs = some (ram', p, ps)) :
    qs.Perm (p :: ps) := by
  induction fuel generalizing ram qs with
  | zero => cases h
  | succ fuel ih =>
    cases qs with
    | nil => cases h
    | cons q qs =>
      rw [secondChance] at h
      split at h
      · cases h
      · split at h
        · exact (List.perm_append_singleton q qs).symm.trans (ih h)
        · simp only [Option.some.injEq, Prod.mk.injEq] at h
          obtain ⟨-, rfl, rfl⟩ := h
          exact List.Perm.refl _

/-- An entry of a first-level table is written. -/
theorem Steady.store (hr : ∃ pid v2 v1, Has ρ s pid (.leaf v2 v1) r.page) (v : UInt64) :
    Steady ρ s (s.putRam fun ram => ram.store r v) := by
  refine ⟨rfl, fun kva hn => Ram.store_page _ _ _ ?_⟩
  rintro rfl
  obtain ⟨pid, v2, v1, hh⟩ := hr
  exact hn pid v2 v1 hh

/-- The loop clears attributes and turns the list. -/
theorem secondChance_inv (fuel : ℕ) (h : Inv ρ L s) {ram' : Ram} {ps : List PageNode}
    (hs : secondChance fuel s.ram s.user_page_mem_head = some (ram', p, ps)) :
    Inv ρ L { s with ram := ram', user_page_mem_head := p :: ps } ∧
    Ext ρ s ρ { s with ram := ram', user_page_mem_head := p :: ps } ∧
      Steady ρ s { s with ram := ram', user_page_mem_head := p :: ps } := by
  induction fuel generalizing s with
  | zero => cases hs
  | succ fuel ih =>
    cases hU : s.user_page_mem_head with
    | nil =>
      rw [hU] at hs
      cases hs
    | cons q qs =>
      rw [hU, secondChance] at hs
      have hq : q ∈ s.user_page_mem_head := by
        rw [hU]
        exact List.mem_cons_self ..
      split at hs
      · cases hs
      · next r hr =>
        obtain ⟨r', hr', -, hleaf⟩ := h.tables.entry_has (h.tables.entry q (List.mem_append_left _ hq))
        obtain rfl := Option.some.inj (hr.symm.trans hr')
        split at hs
        · obtain ⟨h₁, hx₁⟩ := h.storeAttribute hleaf
            (v := clear_attribute (s.ram.load r) (PAGE_ACCESSED ||| PAGE_DIRTY))
            (present_clear_attribute wbit_attribute)
            (target_clear_attribute _ attribute_lt)
          have hperm : (s.putRam fun ram =>
            ram.store r (clear_attribute (s.ram.load r)
              (PAGE_ACCESSED ||| PAGE_DIRTY))).user_page_mem_head.Perm
              (qs ++ [q]) := by
            rw [Memory.putRam_user_page_mem_head, hU]
            exact (List.perm_append_singleton q qs).symm
          obtain ⟨h₂, hx₂, hst₂⟩ := ih (h₁.perm hperm) hs
          exact ⟨h₂, hx₁.trans ⟨hx₂.has, hx₂.walk, hx₂.kernel_dir⟩, (Steady.store ⟨_, _, _, hleaf⟩ _).trans hst₂⟩
        · simp only [Option.some.injEq, Prod.mk.injEq] at hs
          obtain ⟨rfl, rfl, rfl⟩ := hs
          rw [← hU]
          exact ⟨h, Ext.refl ρ s, rfl, fun _ _ => rfl⟩

/-! ### Swapping out -/

/-- The page `p`, with the entry `r`, is taken out of memory. -/
@[simps! -fullyApplied] def Memory.evict (s : Memory) (p : PageNode) (ps : List PageNode) (r : Ref) : Memory :=
  Memory.note { s with
    ram := s.ram.store r (clear_attribute (s.ram.load r) PAGE_PRESENT)
    user_page_mem_head := ps
    user_page_sd_head := s.user_page_sd_head ++ [{ p with addr := s.sd_sector_end }]
    sd_sector_end := s.sd_sector_end + PAGE_SECTORS } (.evicted p.addr (s.isShared p.addr))

theorem swap_page_out_spec : Partial s swap_page_out fun a s' => ∃ ram p ps r,
    secondChance (s.user_page_mem_head.length + 1) s.ram s.user_page_mem_head = some (ram, p, ps) ∧
    p.pte_entry = some r ∧
      a = p.addr ∧ s' = Memory.evict { s with ram := ram, user_page_mem_head := p :: ps } p ps r := by
  refine Partial.get_bind ?_
  split
  · exact Partial.stop
  · next ram p ps hs =>
    split
    · exact Partial.stop
    · next r hr =>
      refine Partial.modify_bind (Partial.assert_bind fun _ => Partial.get_bind (Partial.perform_bind fun _ => ?_))
      exact Partial.modify_bind (Partial.modify_bind (Partial.pure ⟨ram, p, ps, r, hs, hr, rfl, rfl⟩))

theorem Frames.evict (h : Frames L s) {ps : List PageNode}
    (hU : s.user_page_mem_head = p :: ps) (hn : s.isShared p.addr = false) :
    Frames (p.addr :: L) (s.evict p ps r) := by
  have hmem : ∀ q ∈ ps, q ∈ s.user_page_mem_head := fun q hq => by rw [hU]; exact List.mem_cons_of_mem _ hq
  have hp : p ∈ s.user_page_mem_head := by
    rw [hU]
    exact List.mem_cons_self ..
  have hdist := h.distinct
  rw [hU, List.pairwise_cons] at hdist
  refine ⟨fun q hq => h.marked q ?_, fun f hf => ?_, ?_, fun q hq => ?_,
    fun q hq => h.user q (hmem q hq), hdist.2, h.kernel_uva,
    fun q hq => ?_, fun hfb => h.pool fun hm => hfb (List.mem_append_left _ hm), fun kva b b' hm => ?_⟩
  · exact (List.mem_append.mp hq).elim (List.mem_append_left _) fun hq => List.mem_append_right _ (hmem q hq)
  · rcases List.mem_cons.mp hf with rfl | hf
    · exact h.marked p (List.mem_append_right _ hp)
    · exact h.taken f hf
  · have hperm : (s.kernel_page_head.map (·.addr) ++ p.addr :: L).Perm
        (p.addr :: (s.kernel_page_head.map (·.addr) ++ L)) :=
      List.perm_middle
    exact hperm.nodup_iff.mpr (List.nodup_cons.mpr ⟨h.apart p hp, h.kernel⟩)
  · have hq' := h.apart q (hmem q hq)
    simp only [List.mem_append, List.mem_cons, not_or] at hq' ⊢
    refine ⟨hq'.1, fun he => ?_, hq'.2⟩
    have := hdist.1 q hq he.symm
    rw [hn] at this
    cases this
  · simp only [Memory.evict_user_page_mem_head, Memory.evict_user_page_sd_head,
      List.mem_append, List.mem_singleton] at hq
    rcases hq with hq | hq | rfl
    · exact h.user_uva q (List.mem_append_left _ (hmem q hq))
    · exact h.user_uva q (List.mem_append_right _ hq)
    · exact h.user_uva p (List.mem_append_left _ hp)
  · simp only [Memory.evict_log, List.mem_append, List.mem_singleton, reduceCtorEq, or_false] at hm
    exact h.fresh kva b b' hm

theorem Tables.evict (h : Tables ρ s) (hf : Frames L s) {ps : List PageNode} (hU : s.user_page_mem_head = p :: ps)
    (hr : p.pte_entry = some r) : Tables ρ (s.evict p ps r) ∧
    Ext ρ s ρ (s.evict p ps r) ∧ Steady ρ s (s.evict p ps r) := by
  have hp : p ∈ s.user_page_mem_head := by
    rw [hU]
    exact List.mem_cons_self ..
  obtain ⟨r', hr', -, hleaf⟩ := h.entry_has (h.entry p (List.mem_append_left _ hp))
  obtain rfl := Option.some.inj (hr.symm.trans hr')
  have hfew : Fewer ρ s (s.ram.store r (clear_attribute (s.ram.load r) PAGE_PRESENT)) :=
    hf.fewer_entry hleaf fun hv => absurd hv (not_present_clear _)
  have ht := h.putRam (g := fun ram => ram.store r (clear_attribute (s.ram.load r) PAGE_PRESENT)) hfew
  have hx := h.ext_putRam (g := fun ram => ram.store r (clear_attribute (s.ram.load r) PAGE_PRESENT)) hfew
  refine ⟨⟨ht.dir, ht.mid, fun pid v2 v1 d hd v hv hpr => ?_, fun q hq => ?_, ht.unique⟩,
    ⟨hx.has, hx.walk, hx.kernel_dir⟩,
    Steady.store ⟨_, _, _, hleaf⟩ _⟩
  · -- an entry that is still present is not that of `p`
    obtain ⟨q, hq, hpid, hqr, hqt⟩ := ht.leaf pid v2 v1 d hd v hv hpr
    rw [Memory.putRam_user_page_mem_head, hU, List.mem_cons] at hq
    rcases hq with rfl | hq
    · obtain rfl := Option.some.inj (hr.symm.trans hqr)
      refine absurd hpr ?_
      rw [Memory.evict_ram, Ram.store_apply, if_pos rfl]
      exact not_present_clear _
    · exact ⟨q, hq, hpid, hqr, hqt⟩
  · simp only [Memory.evict_user_page_mem_head, Memory.evict_user_page_sd_head,
      List.mem_append, List.mem_singleton] at hq
    rcases hq with hq | hq | rfl
    · exact ht.entry q
        (List.mem_append_left _
          (by rw [Memory.putRam_user_page_mem_head, hU]; exact List.mem_cons_of_mem _ hq))
    · exact ht.entry q (List.mem_append_right _ hq)
    · exact ht.entry p (List.mem_append_left _ hp)

theorem Sharing.evict (h : Sharing s) {ps : List PageNode} (hU : s.user_page_mem_head = p :: ps)
    (hr : p.pte_entry = some r) (hn : s.isShared p.addr = false) : Sharing (s.evict p ps r) := by
  have hmem : ∀ q ∈ ps, q ∈ s.user_page_mem_head := fun q hq => by rw [hU]; exact List.mem_cons_of_mem _ hq
  have hsole := h.sole
  rw [hU, List.pairwise_cons] at hsole
  refine ⟨h.count, h.unused, h.inj, fun a ha => ?_, fun q hq => h.node q (hmem q hq),
    h.nodup, hsole.2, fun q hq hqs q' hq' => ?_, h.page⟩
  · obtain ⟨hu, q, hq, hpid, huva, haddr, r', hr', hpres, ht⟩ := h.attached a ha
    have hsh : s.isShared q.addr = true := isShared_iff.mpr ⟨a.shm, hu, haddr.symm⟩
    rw [hU, List.mem_cons] at hq
    rcases hq with rfl | hq
    · rw [hn] at hsh
      cases hsh
    · have hne : r' ≠ r := by
        rintro rfl
        exact hsole.1 q hq (Or.inr hsh) (hr.trans hr'.symm)
      refine ⟨hu, q, hq, hpid, huva, haddr, r', hr', ?_⟩
      rw [Memory.evict_ram, Ram.load_store_of_ne _ _ hne]
      exact ⟨hpres, ht⟩
  · simp only [Memory.evict_user_page_sd_head, List.mem_append, List.mem_singleton] at hq'
    rcases hq' with hq' | rfl
    · exact h.soleSd q (hmem q hq) hqs q' hq'
    · exact hsole.1 q hq (Or.inr hqs)

theorem Inv.evict (h : Inv ρ L s) {ps : List PageNode} (hU : s.user_page_mem_head = p :: ps) (hr : p.pte_entry = some r)
    (hn : s.isShared p.addr = false) : Inv ρ (p.addr :: L) (s.evict p ps r) := by
  refine ⟨h.frames.evict hU hn, (h.tables.evict h.frames hU hr).1, fun q hq => ?_, h.sharing.evict hU hr hn⟩
  simp only [Memory.evict_kernel_page_head, Memory.evict_user_page_mem_head, Memory.evict_user_page_sd_head,
    List.mem_append, List.mem_singleton] at hq
  rcases hq with (hq | hq) | hq | rfl
  · exact h.pids q (List.mem_append_left _ (List.mem_append_left _ hq))
  · exact h.pids q (List.mem_append_left _ (List.mem_append_right _ (by rw [hU]; exact List.mem_cons_of_mem _ hq)))
  · exact h.pids q (List.mem_append_right _ hq)
  · exact h.pids p (List.mem_append_left _ (List.mem_append_right _ (by rw [hU]; exact List.mem_cons_self ..)))

/-- A frame is taken: quietly, and so that no node has it. -/
def Takes (P : UInt64 → Memory → Prop) (s : Memory) (kva : UInt64) (s' : Memory) : Prop :=
  Quiet s s' ∧ (Kept s' → ∀ ρ L, Inv ρ L s → Inv ρ (kva :: L) s' ∧ Ext ρ s ρ s' ∧ Steady ρ s s' ∧ P kva s')

/-- A frame of the user pool. -/
def FromUser (kva : UInt64) (_ : Memory) : Prop := IsUserFrame kva

/-- A frame of the kernel's pool, as long as it has not run out of frames. -/
def FromKernel (kva : UInt64) (s : Memory) : Prop := .fallback ∉ s.log → IsKernelFrame kva

theorem swap_page_out_takes : Partial s swap_page_out (Takes FromUser s) := by
  intro σ h d a c he
  refine ⟨swap_page_out_quiet s σ h d a c he, fun hk ρ L hI => ?_⟩
  obtain ⟨ram, p, ps, r, hs, hr, rfl, hc⟩ := swap_page_out_spec σ h d a c he
  rw [hc] at hk ⊢
  obtain ⟨hI₁, hx₁, hst₁⟩ := secondChance_inv _ hI hs
  obtain ⟨-, hx₂, hst₂⟩ := hI₁.tables.evict hI₁.frames rfl hr
  have hn : s.isShared p.addr = false := by
    rw [Bool.eq_false_iff]
    intro hsh
    refine hk p.addr (List.mem_append_right _ ?_)
    have hsh' : Memory.isShared { s with ram := ram, user_page_mem_head := p :: ps } p.addr = true := hsh
    rw [hsh']
    exact List.mem_singleton.mpr rfl
  exact ⟨hI₁.evict rfl hr hn, hx₁.trans hx₂, hst₁.trans hst₂, hI₁.frames.user p (List.mem_cons_self ..)⟩

/-! ### The bitmaps -/

theorem find_free_pages_eq_some {bitmap : ℕ → UInt8} {limit n : ℕ} (h : find_free_pages bitmap limit = some n) :
    n < limit ∧ bit bitmap n = false := by
  have hlimit : limit ≤ 8 * NPAGES2BITMAPCH limit := by
    unfold NPAGES2BITMAPCH
    split
    · omega
    · omega
  rw [find_free_pages, scan_eq hlimit, firstClear_eq_some] at h
  exact ⟨h.1, h.2.1⟩

theorem marked_kernelFrame {n : ℕ} (hn : n < FREE_KERNEL_PAGE_NUM) :
    Marked s (kernelFrame n) ↔ bit s.kernel_bitmap n = true := by
  constructor
  · rintro (⟨m, hm, he, hb⟩ | ⟨m, hm, he, hb⟩)
    · rw [kernelFrame_inj (Nat.lt_of_lt_of_le hn (Nat.le_add_right _ _))
        (Nat.lt_of_lt_of_le hm (Nat.le_add_right _ _)) he]
      exact hb
    · rw [userFrame_eq hm] at he
      have := kernelFrame_inj (Nat.lt_of_lt_of_le hn (Nat.le_add_right _ _)) (Nat.add_lt_add_left hm _) he
      omega
  · exact fun hb => Or.inl ⟨n, hn, rfl, hb⟩

theorem marked_userFrame {n : ℕ} (hn : n < FREE_USER_PAGE_NUM) :
    Marked s (userFrame n) ↔ bit s.user_bitmap n = true := by
  constructor
  · rintro (⟨m, hm, he, hb⟩ | ⟨m, hm, he, hb⟩)
    · rw [userFrame_eq hn] at he
      have := kernelFrame_inj (Nat.add_lt_add_left hn _) (Nat.lt_of_lt_of_le hm (Nat.le_add_right _ _)) he
      omega
    · rw [userFrame_eq hn, userFrame_eq hm] at he
      have := kernelFrame_inj (Nat.add_lt_add_left hn _) (Nat.add_lt_add_left hm _) he
      obtain rfl : n = m := Nat.add_left_cancel this
      exact hb
  · exact fun hb => Or.inr ⟨n, hn, rfl, hb⟩

/-- A frame that was not marked is marked. -/
theorem Inv.mark (h : Inv ρ L s) {kb ub : ℕ → UInt8} (hk : ∀ n, bit s.kernel_bitmap n = true → bit kb n = true)
    (hu : ∀ n, bit s.user_bitmap n = true → bit ub n = true) (hf : ¬ Marked s f)
    (hf' : Marked { s with kernel_bitmap := kb, user_bitmap := ub } f) :
    Inv ρ (f :: L) { s with kernel_bitmap := kb, user_bitmap := ub } := by
  obtain ⟨hfr, ht, hi, hs⟩ := h
  refine ⟨⟨fun p hp => (hfr.marked p hp).mono hk hu, fun g hg => ?_,
    ?_, fun p hp => ?_, hfr.user, hfr.distinct, hfr.kernel_uva,
    hfr.user_uva, hfr.pool, hfr.fresh⟩, ⟨ht.dir, ht.mid, ht.leaf, ht.entry, ht.unique⟩, hi,
    ⟨hs.count, hs.unused, hs.inj, hs.attached, hs.node, hs.nodup, hs.sole, hs.soleSd, hs.page⟩⟩
  · rcases List.mem_cons.mp hg with rfl | hg
    · exact hf'
    · exact (hfr.taken g hg).mono hk hu
  · refine (List.perm_middle : (s.kernel_page_head.map (·.addr) ++ f :: L).Perm _).nodup_iff.mpr
      (List.nodup_cons.mpr ⟨fun hm => hf ?_, hfr.kernel⟩)
    rcases List.mem_append.mp hm with hm | hm
    · obtain ⟨p, hp, rfl⟩ := List.mem_map.mp hm
      exact hfr.marked p (List.mem_append_left _ hp)
    · exact hfr.taken f hm
  · have hap := hfr.apart p hp
    simp only [List.mem_append, List.mem_cons, not_or] at hap ⊢
    refine ⟨hap.1, fun he => hf ?_, hap.2⟩
    rw [← he]
    exact hfr.marked p (List.mem_append_right _ hp)

/-! ### Handing out -/

/-- A note that says nothing about frames. -/
theorem Inv.note (h : Inv ρ L s) {n : Note}
    (hn : ∀ kva held isShared, n = .handed kva held isShared → held = false ∧ isShared = false) :
    Inv ρ L (s.note n) := by
  obtain ⟨hf, ht, hi, hs⟩ := h
  refine ⟨⟨hf.marked, hf.taken, hf.kernel, hf.apart, hf.user, hf.distinct, hf.kernel_uva, hf.user_uva,
    fun hfb => hf.pool fun hm => hfb (List.mem_append_left _ hm), fun kva b b' hm => ?_⟩,
    ⟨ht.dir, ht.mid, ht.leaf, ht.entry, ht.unique⟩, hi,
    ⟨hs.count, hs.unused, hs.inj, hs.attached, hs.node, hs.nodup, hs.sole, hs.soleSd, hs.page⟩⟩
  rcases List.mem_append.mp hm with hm | hm
  · exact hf.fresh kva b b' hm
  · exact hn kva b b' (List.mem_singleton.mp hm).symm

theorem Ext.note (ρ : Roles) (s : Memory) (n : Note) : Ext ρ s ρ (s.note n) :=
  ⟨fun _ _ _ h => h, fun _ _ _ _ _ _ h => h, rfl⟩

/-- The page of a shared slot in use is a page of some process. -/
theorem Sharing.exists_node (h : Sharing s) (hsh : s.isShared f = true) : ∃ p ∈ s.user_page_mem_head, p.addr = f := by
  obtain ⟨i, hu, rfl⟩ := isShared_iff.mp hsh
  obtain ⟨hcount, hpos⟩ := h.count i hu
  have hc : 0 < s.attached.countP (·.shm = i) := by omega
  obtain ⟨a, ha, hai⟩ := List.countP_pos_iff.mp hc
  obtain rfl : a.shm = i := by simpa using hai
  obtain ⟨-, p, hp, -, -, haddr, -⟩ := h.attached a ha
  exact ⟨p, hp, haddr⟩

/-- Frames that have been taken are no one's. -/
theorem Inv.free (h : Inv ρ L s) (hf : f ∈ L) : s.held f = false ∧ s.isShared f = false := by
  have huser : ∀ p ∈ s.user_page_mem_head, p.addr ≠ f := by
    rintro p hp rfl
    exact h.frames.apart p hp (List.mem_append_right _ hf)
  constructor
  · rw [Memory.held, List.any_eq_false]
    intro p hp he
    rcases List.mem_append.mp hp with hp | hp
    · exact (List.nodup_append.mp h.frames.kernel).2.2 p.addr (List.mem_map_of_mem hp) f hf (by simpa using he)
    · exact huser p hp (by simpa using he)
  · rw [Bool.eq_false_iff]
    intro hsh
    obtain ⟨p, hp, he⟩ := h.sharing.exists_node hsh
    exact huser p hp he

theorem handOut_spec (kva : UInt64) : Partial s (handOut kva) fun a s' =>
    a = kva ∧ s' = s.note (.handed kva (s.held kva) (s.isShared kva)) :=
  Partial.get_bind (Partial.modify_bind (Partial.pure ⟨rfl, rfl⟩))

/-- A frame that has been taken is handed out. -/
theorem Takes.handOut {P : UInt64 → Memory → Prop} (ht : Takes P s kva s')
    (hP : ∀ n, (n ≠ .fallback) → P kva s' → P kva (s'.note n)) :
    Partial s' (handOut kva) (Takes P s) := by
  intro σ h d a c he
  obtain ⟨hq, hI⟩ := ht
  refine ⟨IsTrans.trans _ _ _ hq (handOut_quiet kva s' σ h d a c he), fun hk ρ L hs => ?_⟩
  obtain ⟨rfl, hc⟩ := handOut_spec kva σ h d a c he
  rw [hc] at hk ⊢
  obtain ⟨hI', hx, hst, hp⟩ := hI (hk.of_subset (List.subset_append_left _ _)) ρ L hs
  obtain ⟨hheld, hsh⟩ := hI'.free (List.mem_cons_self ..)
  refine ⟨hI'.note fun kva' b b' hn => ?_, hx.trans (Ext.note ρ s' _), hst, hP _ (by simp) hp⟩
  simp only [Note.handed.injEq] at hn
  rw [← hn.2.1, ← hn.2.2]
  exact ⟨hheld, hsh⟩

theorem alloc_user_page_takes : Partial s alloc_user_page (Takes FromUser s) := by
  refine Partial.get_bind ?_
  split
  · exact swap_page_out_takes.bind fun kva s' ht => ht.handOut fun _ _ h => h
  · next n hn =>
    obtain ⟨hlt, hb⟩ := find_free_pages_eq_some hn
    refine Partial.modify_bind (Takes.handOut ⟨.of_eq rfl rfl rfl rfl rfl rfl, fun _ ρ L hI => ?_⟩ fun _ _ h => h)
    refine ⟨hI.mark (fun _ h => h) (fun m h => ?_) ?_ ?_, ⟨fun _ _ _ h => h, fun _ _ _ _ _ _ h => h, rfl⟩,
      ⟨rfl, fun _ _ => rfl⟩, ⟨n, hlt, rfl⟩⟩
    · rw [mark_page_allocated, bit_setBit, h, Bool.or_true]
    · show ¬ Marked s (userFrame n)
      rw [marked_userFrame hlt, hb]
      exact Bool.false_ne_true
    · refine (marked_userFrame hlt).mpr ?_
      show bit (mark_page_allocated n s.user_bitmap) n = true
      rw [mark_page_allocated, bit_setBit, decide_eq_true rfl, Bool.true_or]

theorem alloc_kernel_page_takes : Partial s alloc_kernel_page (Takes FromKernel s) := by
  have hnote : ∀ {kva : UInt64} {s' : Memory} (n : Note),
      n ≠ .fallback → FromKernel kva s' → FromKernel kva (s'.note n) :=
    fun n hn h hm => h fun h' => hm (List.mem_append_left _ h')
  refine Partial.get_bind ?_
  split
  · refine Partial.modify_bind (swap_page_out_takes.bind fun kva s' ht => Takes.handOut ⟨?_, fun hk ρ L hI => ?_⟩ hnote)
    · have hq : Quiet s (s.note .fallback) :=
        ⟨rfl, rfl, rfl, rfl, rfl, List.subset_append_left _ _, fun pid => by simp [grants_append]⟩
      exact IsTrans.trans _ _ _ hq ht.1
    · obtain ⟨hI', hx, hst, -⟩ := ht.2 hk ρ L (hI.note fun _ _ _ h => nomatch h)
      exact ⟨hI', (Ext.note ρ s _).trans hx, hst,
        fun hfb => absurd (ht.1.log (List.mem_append_right _ (List.mem_singleton.mpr rfl))) hfb⟩
  · next n hn =>
    obtain ⟨hlt, hb⟩ := find_free_pages_eq_some hn
    refine Partial.modify_bind (Takes.handOut ⟨.of_eq rfl rfl rfl rfl rfl rfl, fun _ ρ L hI => ?_⟩ hnote)
    refine ⟨hI.mark (fun m h => ?_) (fun _ h => h) ?_ ?_, ⟨fun _ _ _ h => h, fun _ _ _ _ _ _ h => h, rfl⟩,
      ⟨rfl, fun _ _ => rfl⟩, fun _ => ⟨n, hlt, rfl⟩⟩
    · rw [mark_page_allocated, bit_setBit, h, Bool.or_true]
    · show ¬ Marked s (kernelFrame n)
      rw [marked_kernelFrame hlt, hb]
      exact Bool.false_ne_true
    · refine (marked_kernelFrame hlt).mpr ?_
      show bit (mark_page_allocated n s.kernel_bitmap) n = true
      rw [mark_page_allocated, bit_setBit, decide_eq_true rfl, Bool.true_or]

end OsLab.Mm
