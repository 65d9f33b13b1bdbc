import OsLab.Mm.Pages

/-!
# What the processor makes of the kernel's page table

A walk through three levels, where an entry with `R` or `X` is a page and any other present entry is a table. The
kernel's own page table is the page `PGDIR_VA`. Sixteen entries of it are for I/O, and their tables are frames of
the pools with a role each (`KernelMap`); the tables of its other entries were set up when the kernel was loaded, and
lie outside the pools. A walk reads one word of each level, so most writes do not change what it finds.
-/

namespace OsLab.Mm

open Lib

/-! ### Translation -/

/-- An entry for a page, if it is present. -/
def IsLeaf (e : UInt64) : Prop := get_attribute e (PAGE_READ ||| PAGE_EXEC) ≠ 0

instance : DecidablePred Present := fun _ => inferInstanceAs (Decidable (_ ≠ _))

instance : DecidablePred IsLeaf := fun _ => inferInstanceAs (Decidable (_ ≠ _))

/-- One level of a walk: where the entry `e` leads the address `va`. A page of the level has `size` bytes, and `next`
goes on with a table. -/
def walkLevel (e va size : UInt64) (next : UInt64 → Option UInt64) : Option UInt64 :=
  if ¬ Present e then none else if IsLeaf e then some (get_pa e + va % size) else next (target e)

/-- The highest bits of the address are all like bit 38. -/
def Canonical (va : UInt64) : Prop := va >>> 38 = 0 ∨ va >>> 38 = 0x3ffffff

instance : DecidablePred Canonical := fun _ => inferInstanceAs (Decidable (_ ∨ _))

/-- The physical address of `va` by the page table `pgdir`. -/
def sv39 (ram : Ram) (pgdir va : UInt64) : Option UInt64 :=
  if ¬ Canonical va then none
  else walkLevel (ram pgdir (vpn2 va).toNat) va 0x40000000 fun lv2 =>
    walkLevel (ram lv2 (vpn1 va).toNat) va 0x200000 fun lv1 =>
      walkLevel (ram lv1 (vpn0 va).toNat) va 0x1000 fun _ => none

/-- The kernel's page table translates every address as before. -/
def SameMap (ram ram' : Ram) : Prop := ∀ va, sv39 ram' PGDIR_VA va = sv39 ram PGDIR_VA va

/-! ### The kernel's page table -/

/-- An entry of `PGDIR_VA` from `IO_ADDR_START` on and before `IO_ADDR_END`. -/
def IoIndex (v : ℕ) : Prop := 384 ≤ v ∧ v < 400

/-- A page that is neither a frame nor the kernel's page directory. -/
def Outside (kva : UInt64) : Prop := ¬ IsFrame kva ∧ kva ≠ PGDIR_VA

/-- An entry for one of the tables `L`, with a role. -/
structure IsTable (κ : Roles) (L : List UInt64) (role : Role) (e : UInt64) : Prop where
  present : Present e
  table : ¬ IsLeaf e
  mem : target e ∈ L
  role : κ (target e) = role

/-- The kernel's page table, where `L` are the tables for I/O and `κ` their roles. -/
structure KernelMap (κ : Roles) (L : List UInt64) (ram : Ram) : Prop where
  io : ∀ v, IoIndex v → ram PGDIR_VA v = 0 ∨ IsTable κ L (.mid v) (ram PGDIR_VA v)
  mid : ∀ d ∈ L, ∀ v2, κ d = .mid v2 → ∀ v1 < 512, ram d v1 = 0 ∨ IsTable κ L (.leaf v2 v1) (ram d v1)
  boot2 : ∀ v, ¬ IoIndex v → Present (ram PGDIR_VA v) → ¬ IsLeaf (ram PGDIR_VA v) → Outside (target (ram PGDIR_VA v))
  boot1 : ∀ v, ¬ IoIndex v → Present (ram PGDIR_VA v) → ¬ IsLeaf (ram PGDIR_VA v) → ∀ v1,
    Present (ram (target (ram PGDIR_VA v)) v1) → ¬ IsLeaf (ram (target (ram PGDIR_VA v)) v1) →
      Outside (target (ram (target (ram PGDIR_VA v)) v1))

/-- The words that a walk for `va` may read are the same. -/
structure SameWalk (κ : Roles) (L : List UInt64) (ram ram' : Ram) (va : UInt64) : Prop where
  top : ram' PGDIR_VA (vpn2 va).toNat = ram PGDIR_VA (vpn2 va).toNat
  outside : ∀ d, Outside d → ram' d = ram d
  mid : ∀ d ∈ L, κ d = .mid (vpn2 va).toNat → ram' d (vpn1 va).toNat = ram d (vpn1 va).toNat
  leaf : ∀ d ∈ L, κ d = .leaf (vpn2 va).toNat (vpn1 va).toNat → ram' d (vpn0 va).toNat = ram d (vpn0 va).toNat

variable {κ κ' : Roles} {L L' : List UInt64} {ram ram' : Ram}
    {e va size kva d pgdir : UInt64} {role : Role} {r : Ref} {v : ℕ}
  {next next' : UInt64 → Option UInt64}

/-! ### Levels -/

theorem not_present_zero : ¬ Present 0 := fun h => h rfl

theorem walkLevel_zero : walkLevel 0 va size next = none := if_pos not_present_zero

theorem walkLevel_table (hp : Present e) (hl : ¬ IsLeaf e) : walkLevel e va size next = next (target e) := by
  rw [walkLevel, if_neg (not_not.mpr hp), if_neg hl]

theorem walkLevel_leaf (hp : Present e) (hl : IsLeaf e) : walkLevel e va size next = some (get_pa e + va % size) := by
  rw [walkLevel, if_neg (not_not.mpr hp), if_pos hl]

theorem walkLevel_congr (h : Present e → ¬ IsLeaf e → next (target e) = next' (target e)) :
    walkLevel e va size next = walkLevel e va size next' := by
  unfold walkLevel
  split
  · rfl
  · next hp =>
    split
    · rfl
    · next hl => exact h (not_not.mp hp) hl

theorem sv39_eq (hc : Canonical va) : sv39 ram pgdir va =
    walkLevel (ram pgdir (vpn2 va).toNat) va 0x40000000 fun lv2 =>
      walkLevel (ram lv2 (vpn1 va).toNat) va 0x200000 fun lv1 =>
          walkLevel (ram lv1 (vpn0 va).toNat) va 0x1000 fun _ => none :=
  if_neg (not_not.mpr hc)

theorem IsTable.walkLevel (h : IsTable κ L role e) : walkLevel e va size next = next (target e) :=
  walkLevel_table h.present h.table

theorem IsTable.mono (h : IsTable κ L role e) (hL : ∀ d ∈ L, d ∈ L' ∧ κ' d = κ d) : IsTable κ' L' role e :=
  ⟨h.present, h.table, (hL _ h.mem).1, (hL _ h.mem).2.trans h.role⟩

/-! ### Writes that a walk does not see -/

theorem KernelMap.sv39_congr (h : KernelMap κ L ram) (hs : SameWalk κ L ram ram' va) :
    sv39 ram' PGDIR_VA va = sv39 ram PGDIR_VA va := by
  by_cases hc : Canonical va
  · rw [sv39_eq hc, sv39_eq hc, hs.top]
    by_cases hio : IoIndex (vpn2 va).toNat
    · rcases h.io _ hio with h0 | ht
      · rw [h0, walkLevel_zero, walkLevel_zero]
      · rw [ht.walkLevel, ht.walkLevel, hs.mid _ ht.mem ht.role]
        rcases h.mid _ ht.mem _ ht.role _ (vpn1_lt va) with h0 | ht'
        · rw [h0, walkLevel_zero, walkLevel_zero]
        · rw [ht'.walkLevel, ht'.walkLevel, hs.leaf _ ht'.mem ht'.role]
    · refine walkLevel_congr fun hp hl => ?_
      rw [hs.outside _ (h.boot2 _ hio hp hl)]
      refine walkLevel_congr fun hp' hl' => ?_
      rw [hs.outside _ (h.boot1 _ hio hp hl _ hp' hl')]
  · rw [sv39, sv39, if_pos hc, if_pos hc]

/-- Frames are written that are no tables for I/O. -/
theorem KernelMap.agree (h : KernelMap κ L ram) (hk : ram' PGDIR_VA = ram PGDIR_VA) (hL : ∀ d ∈ L, ram' d = ram d)
    (ho : ∀ d, Outside d → ram' d = ram d) : KernelMap κ L ram' ∧ SameMap ram ram' := by
  refine ⟨⟨fun v hv => ?_, fun d hd v2 hr v1 hv => ?_, fun v hv hp hl => ?_, fun v hv hp hl v1 hp' hl' => ?_⟩,
    fun va => h.sv39_congr ⟨congrFun hk _, ho, fun d hd _ => congrFun (hL d hd) _, fun d hd _ => congrFun (hL d hd) _⟩⟩
  · rw [hk]
    exact h.io v hv
  · rw [hL d hd]
    exact h.mid d hd v2 hr v1 hv
  · rw [hk] at hp hl ⊢
    exact h.boot2 v hv hp hl
  · rw [hk] at hp hl hp' hl' ⊢
    rw [ho _ (h.boot2 v hv hp hl)] at hp' hl' ⊢
    exact h.boot1 v hv hp hl v1 hp' hl'

/-! ### A new table -/

/-- An entry of the kernel's page table that a table for I/O with a role belongs in. -/
def IoSlot (κ : Roles) (L : List UInt64) (ram : Ram) (r : Ref) : Role → Prop
  | .mid v2 => r = ⟨PGDIR_VA, v2⟩ ∧ IoIndex v2
  | .leaf v2 v1 => r = ⟨target (ram PGDIR_VA v2), v1⟩ ∧ IoIndex v2 ∧ v1 < 512 ∧ IsTable κ L (.mid v2) (ram PGDIR_VA v2)
  | _ => False

/-- Memory with the empty table `kva` at the entry `r`. -/
def Ram.link (ram : Ram) (r : Ref) (kva : UInt64) : Ram :=
  (ram.store r (mapEntry (ram.load r) kva PAGE_PRESENT)).fill kva NUM_PTE_ENTRY fun _ => 0

theorem Ram.link_page (hd : d ≠ kva) :
    ram.link r kva d v = if (⟨d, v⟩ : Ref) = r then mapEntry (ram.load r) kva PAGE_PRESENT else ram d v := by
  rw [Ram.link, Ram.fill_page _ _ _ hd, Ram.store_apply]

theorem Ram.link_page_of_ne (hd : d ≠ kva) (hr : d ≠ r.page) : ram.link r kva d = ram d := by
  rw [Ram.link, Ram.fill_page _ _ _ hd, Ram.store_page _ _ _ hr]

theorem Ram.link_self (hv : v < 512) : ram.link r kva kva v = 0 := if_pos ⟨rfl, hv⟩

/-- The lowest ten bits of an entry are its attributes. -/
theorem wbit_entry_low (e pfn bits : UInt64) {i : ℕ} (hi : i < 10) :
    wbit (set_attribute (set_pfn e pfn) bits) i = (wbit e i || wbit bits i) := by
  rw [set_attribute, set_pfn, wbit_or, wbit_or, wbit_and, wbit_not, wbit_shiftLeft _ _ _ (by decide),
    wbit_shiftLeft _ _ _ (by decide)]
  have h10 : decide (i < UInt64.toNat 10) = true := decide_eq_true hi
  have h64 : decide (i < 64) = true := decide_eq_true (by omega)
  rw [h10, h64]
  simp

theorem isLeaf_iff : IsLeaf e ↔ wbit e 1 = true ∨ wbit e 3 = true := by
  have hbit : ∀ i, wbit (get_attribute e (PAGE_READ ||| PAGE_EXEC)) i =
      (wbit e i && (decide (i = 1) || decide (i = 3))) := by
    intro i
    rw [get_attribute, wbit_and]
    congr 1
    rw [wbit_eq_testBit]
    have : (PAGE_READ ||| PAGE_EXEC).toNat = 2 ^ 1 ||| 2 ^ 3 := by decide
    rw [this, Nat.testBit_or, Nat.testBit_two_pow, Nat.testBit_two_pow]
    simp only [eq_comm]
  constructor
  · intro h
    by_contra hn
    rw [not_or, Bool.not_eq_true, Bool.not_eq_true] at hn
    refine h (eq_of_wbit fun i hi => (hbit i).trans ?_)
    have hzero : wbit 0 i = false := Nat.zero_testBit i
    rw [hzero]
    by_cases h1 : i = 1
    · rw [h1, hn.1, Bool.false_and]
    · by_cases h3 : i = 3
      · rw [h3, hn.2, Bool.false_and]
      · simp [h1, h3]
  · intro h he
    have h1 := hbit 1
    have h3 := hbit 3
    rw [he] at h1 h3
    rcases h with h | h
    · rw [h] at h1
      simp [wbit] at h1
    · rw [h] at h3
      simp [wbit] at h3

/-- The entry of a new table. -/
theorem isTable_mapEntry (hf : IsFrame kva) (hm : kva ∈ L) (hr : κ kva = role) :
    IsTable κ L role (mapEntry 0 kva PAGE_PRESENT) := by
  have ht : target (mapEntry 0 kva PAGE_PRESENT) = kva := target_mapEntry _ hf (by decide)
  refine ⟨present_mapEntry _ _ (by decide), ?_, ht.symm ▸ hm, ht.symm ▸ hr⟩
  rw [isLeaf_iff, mapEntry, wbit_entry_low _ _ _ (by decide), wbit_entry_low _ _ _ (by decide)]
  decide

theorem IoSlot.page_ne (hs : IoSlot κ L ram r role) (hL : ∀ d ∈ L, IsFrame d) (ho : Outside d) : d ≠ r.page := by
  rintro rfl
  cases role with
  | mid v2 => exact ho.2 (by rw [hs.1])
  | leaf v2 v1 =>
    obtain ⟨rfl, -, -, ht⟩ := hs
    exact ho.1 (hL _ ht.mem)
  | stack => exact hs
  | dir => exact hs

theorem IoSlot.top (hs : IoSlot κ L ram r role) (hL : ∀ d ∈ L, IsFrame d) (he : ⟨PGDIR_VA, v⟩ = r) :
    role = .mid v ∧ IoIndex v := by
  subst he
  cases role with
  | mid v2 =>
    obtain ⟨he, hio⟩ := hs
    cases he
    exact ⟨rfl, hio⟩
  | leaf v2 v1 =>
    obtain ⟨he, -, -, ht⟩ := hs
    exact absurd (congrArg Ref.page he).symm (hL _ ht.mem).ne_PGDIR_VA
  | stack => exact hs.elim
  | dir => exact hs.elim

theorem IoSlot.below (hs : IoSlot κ L ram r role) (hL : ∀ d ∈ L, IsFrame d)
    (he : ⟨d, v⟩ = r) (hd : d ∈ L) {v2 : ℕ} (hr : κ d = .mid v2) :
    role = .leaf v2 v := by
  subst he
  cases role with
  | mid v2 =>
    obtain ⟨he, -⟩ := hs
    cases he
    exact absurd rfl (hL _ hd).ne_PGDIR_VA
  | leaf v2' v1 =>
    obtain ⟨he, -, -, ht⟩ := hs
    obtain ⟨rfl, rfl⟩ := Ref.mk.inj he
    obtain rfl := Role.mid.inj (hr.symm.trans ht.role)
    rfl
  | stack => exact hs.elim
  | dir => exact hs.elim

/-- The new table is empty, like the entry was. -/
theorem IoSlot.sameMap (hs : IoSlot κ L ram r role) (h : KernelMap κ L ram)
    (hL : ∀ d ∈ L, IsFrame d) (hf : IsFrame kva) (hn : kva ∉ L)
    (h0 : ram.load r = 0) : SameMap ram (ram.link r kva) := by
  have hne : ∀ d ∈ L, d ≠ kva := by
    rintro d hd rfl
    exact hn hd
  have hk : PGDIR_VA ≠ kva := hf.ne_PGDIR_VA.symm
  have hnew : ∀ {va size : UInt64} {next},
      walkLevel (mapEntry (ram.load r) kva PAGE_PRESENT) va size next = next kva := by
    intro va size next
    rw [h0, (isTable_mapEntry hf (κ := fun _ => .stack) (List.mem_singleton.mpr rfl) rfl).walkLevel,
      target_mapEntry _ hf (by decide)]
  have hout : ∀ d, Outside d → ram.link r kva d = ram d := by
    intro d ho
    refine Ram.link_page_of_ne ?_ (hs.page_ne hL ho)
    rintro rfl
    exact ho.1 hf
  intro va
  by_cases hc : Canonical va
  · cases role with
    | mid v2 =>
      obtain ⟨rfl, -⟩ := hs
      by_cases he : (vpn2 va).toNat = v2
      · rw [sv39_eq hc, sv39_eq hc, he, Ram.link_page hk, if_pos rfl, hnew, Ram.link_self (vpn1_lt va), walkLevel_zero]
        exact ((congrArg (walkLevel · _ _ _) h0).trans walkLevel_zero).symm
      · refine h.sv39_congr ⟨?_, hout, fun d hd _ => ?_, fun d hd _ => ?_⟩
        · rw [Ram.link_page hk, if_neg]
          exact fun hr => he (Ref.mk.inj hr).2
        · exact congrFun (Ram.link_page_of_ne (hne d hd) (hL d hd).ne_PGDIR_VA) _
        · exact congrFun (Ram.link_page_of_ne (hne d hd) (hL d hd).ne_PGDIR_VA) _
    | leaf v2 v1 =>
      obtain ⟨rfl, -, -, ht⟩ := hs
      have htop : ∀ v, ram.link ⟨target (ram PGDIR_VA v2), v1⟩ kva PGDIR_VA v = ram PGDIR_VA v := by
        intro v
        rw [Ram.link_page_of_ne (r := ⟨target (ram PGDIR_VA v2), v1⟩) hk (hL _ ht.mem).ne_PGDIR_VA.symm]
      by_cases he : (vpn2 va).toNat = v2 ∧ (vpn1 va).toNat = v1
      · rw [sv39_eq hc, sv39_eq hc, htop, he.1, ht.walkLevel, ht.walkLevel,
          he.2, Ram.link_page (hne _ ht.mem), if_pos rfl, hnew,
          Ram.link_self (vpn0_lt va), walkLevel_zero]
        exact ((congrArg (walkLevel · _ _ _) h0).trans walkLevel_zero).symm
      · refine h.sv39_congr ⟨htop _, hout, fun d hd hr => ?_, fun d hd hr => ?_⟩
        · rw [Ram.link_page (hne d hd), if_neg]
          intro hr'
          obtain ⟨rfl, hv⟩ := Ref.mk.inj hr'
          exact he ⟨Role.mid.inj (hr.symm.trans ht.role), hv⟩
        · rw [Ram.link_page_of_ne (hne d hd)]
          rintro rfl
          exact nomatch hr.symm.trans ht.role
    | stack => exact hs.elim
    | dir => exact hs.elim
  · rw [sv39, sv39, if_pos hc, if_pos hc]

/-- An empty table does not change what is translated. -/
theorem KernelMap.link (h : KernelMap κ L ram) (hL : ∀ d ∈ L, IsFrame d)
    (hf : IsFrame kva) (hn : kva ∉ L) (hs : IoSlot κ L ram r role)
    (h0 : ram.load r = 0) : KernelMap (κ.set kva role) (kva :: L) (ram.link r kva) ∧ SameMap ram (ram.link r kva) := by
  have hne : ∀ d ∈ L, d ≠ kva := by
    rintro d hd rfl
    exact hn hd
  have hset : ∀ d ∈ L, d ∈ kva :: L ∧ κ.set kva role d = κ d := fun d hd =>
    ⟨List.mem_cons_of_mem _ hd, Function.update_of_ne (hne d hd) ..⟩
  have hk : PGDIR_VA ≠ kva := hf.ne_PGDIR_VA.symm
  have hnew : IsTable (κ.set kva role) (kva :: L) role (mapEntry (ram.load r) kva PAGE_PRESENT) := by
    rw [h0]
    exact isTable_mapEntry hf (List.mem_cons_self ..) (Function.update_self ..)
  have hout : ∀ d, Outside d → ram.link r kva d = ram d := by
    intro d ho
    refine Ram.link_page_of_ne ?_ (hs.page_ne hL ho)
    rintro rfl
    exact ho.1 hf
  have hboot : ∀ v, ¬ IoIndex v → ram.link r kva PGDIR_VA v = ram PGDIR_VA v := by
    intro v hv
    rw [Ram.link_page hk, if_neg]
    intro he
    exact hv (hs.top hL he).2
  refine ⟨⟨fun v hv => ?_, fun d hd v2 hr v1 hv => ?_, fun v hv hp hl => ?_, fun v hv hp hl v1 hp' hl' => ?_⟩,
    fun va => ?_⟩
  · rw [Ram.link_page hk]
    split
    · next he =>
      obtain ⟨rfl, -⟩ := hs.top hL he
      exact Or.inr hnew
    · exact (h.io v hv).imp_right fun ht => ht.mono hset
  · rcases List.mem_cons.mp hd with rfl | hd
    · exact Or.inl (Ram.link_self hv)
    · rw [Ram.link_page (hne d hd)]
      rw [(hset d hd).2] at hr
      split
      · next he =>
        rw [← hs.below hL he hd hr]
        exact Or.inr hnew
      · exact (h.mid d hd v2 hr v1 hv).imp_right fun ht => ht.mono hset
  · rw [hboot v hv] at hp hl ⊢
    exact h.boot2 v hv hp hl
  · rw [hboot v hv] at hp hl hp' hl' ⊢
    rw [hout _ (h.boot2 v hv hp hl)] at hp' hl' ⊢
    exact h.boot1 v hv hp hl v1 hp' hl'
  · exact hs.sameMap h hL hf hn h0 va

/-! ### A page -/

/-- The walk for `va` meets `d` as its first-level table. -/
structure LeadsTo (κ : Roles) (L : List UInt64) (ram : Ram) (va d : UInt64) : Prop where
  top : IsTable κ L (.mid (vpn2 va).toNat) (ram PGDIR_VA (vpn2 va).toNat)
  mid : IsTable κ L (.leaf (vpn2 va).toNat (vpn1 va).toNat)
    (ram (target (ram PGDIR_VA (vpn2 va).toNat)) (vpn1 va).toNat)
  page : target (ram (target (ram PGDIR_VA (vpn2 va).toNat)) (vpn1 va).toNat) = d

/-- The addresses have the three page numbers in common. -/
def SameNumbers (va va' : UInt64) : Prop := vpn2 va' = vpn2 va ∧ vpn1 va' = vpn1 va ∧ vpn0 va' = vpn0 va

theorem Canonical.wbit (h : Canonical va) {i : ℕ} (hi : 38 ≤ i) (hi' : i < 64) : wbit va i = wbit va 38 := by
  have hbit : ∀ j, Lib.wbit (va >>> 38) j = Lib.wbit va (38 + j) := fun j => wbit_shiftRight _ _ _ (by decide)
  obtain ⟨j, rfl⟩ := Nat.exists_eq_add_of_le hi
  rw [← hbit j, ← Nat.add_zero 38, ← hbit 0]
  rcases h with h | h
  · rw [h]
    exact (Nat.zero_testBit j).trans (Nat.zero_testBit 0).symm
  · have hmask : (0x3ffffff : UInt64) = UInt64.ofNat (2 ^ 26 - 1) := by decide
    rw [h, hmask, wbit_ofNat_two_pow_sub_one (by decide),
      wbit_ofNat_two_pow_sub_one (by decide), decide_eq_true (by omega),
      decide_eq_true (by omega)]

/-- The page numbers tell the pages of canonical addresses apart. -/
theorem SameNumbers.shift {va' : UInt64} (h : SameNumbers va va') (hc : Canonical va) (hc' : Canonical va') :
    va' >>> 12 = va >>> 12 := by
  obtain ⟨h2, h1, h0⟩ := h
  have hlow : ∀ i, 12 ≤ i → i < 39 → wbit va' i = wbit va i := by
    intro i hi hi'
    by_cases hi1 : i < 21
    · have h := wbit_vpn0 va' (i - 12)
      rw [h0, wbit_vpn0, decide_eq_true (by omega), Bool.and_true, Bool.and_true, show 12 + (i - 12) = i by omega] at h
      exact h.symm
    · by_cases hi2 : i < 30
      · have h := wbit_vpn1 va' (i - 21)
        rw [h1, wbit_vpn1, decide_eq_true (by omega), Bool.and_true,
          Bool.and_true, show 21 + (i - 21) = i by omega] at h
        exact h.symm
      · have h := wbit_vpn2 va' (i - 30)
        rw [h2, wbit_vpn2, decide_eq_true (by omega), Bool.and_true,
          Bool.and_true, show 30 + (i - 30) = i by omega] at h
        exact h.symm
  refine eq_of_wbit fun i _ => ?_
  rw [wbit_shiftRight _ _ _ (by decide), wbit_shiftRight _ _ _ (by decide)]
  show wbit va' (12 + i) = wbit va (12 + i)
  by_cases hi : 12 + i < 39
  · exact hlow _ (by omega) hi
  · by_cases hi' : 12 + i < 64
    · rw [hc'.wbit (by omega) hi', hc.wbit (by omega) hi', hlow 38 (by omega) (by omega)]
    · rw [wbit_of_le _ (by omega), wbit_of_le _ (by omega)]

theorem sameNumbers_of_shift {va' : UInt64} (h : va' >>> 12 = va >>> 12) : SameNumbers va va' := by
  have hbit : ∀ i, 12 ≤ i → wbit va' i = wbit va i := by
    intro i hi
    obtain ⟨j, rfl⟩ := Nat.exists_eq_add_of_le hi
    have hs : ∀ x : UInt64, wbit (x >>> 12) j = wbit x (12 + j) := fun x => wbit_shiftRight _ _ _ (by decide)
    rw [← hs, ← hs, h]
  refine ⟨eq_of_wbit fun i _ => ?_, eq_of_wbit fun i _ => ?_, eq_of_wbit fun i _ => ?_⟩
  · rw [wbit_vpn2, wbit_vpn2, hbit _ (by omega)]
  · rw [wbit_vpn1, wbit_vpn1, hbit _ (by omega)]
  · rw [wbit_vpn0, wbit_vpn0, hbit _ (by omega)]

/-- An entry of a first-level table is written. -/
theorem KernelMap.store (h : KernelMap κ L ram) (hL : ∀ d ∈ L, IsFrame d) (hl : LeadsTo κ L ram va d) (e : UInt64) :
    KernelMap κ L (ram.store ⟨d, (vpn0 va).toNat⟩ e) ∧
      (∀ va', ¬ SameNumbers va va' → sv39 (ram.store ⟨d, (vpn0 va).toNat⟩ e) PGDIR_VA va' = sv39 ram PGDIR_VA va') ∧
      ∀ va', SameNumbers va va' → Canonical va' → Present e → IsLeaf e →
        sv39 (ram.store ⟨d, (vpn0 va).toNat⟩ e) PGDIR_VA va' = some (get_pa e + va' % 0x1000) := by
  obtain ⟨htop, hmid, rfl⟩ := hl
  have hd := hL _ hmid.mem
  have hk : ∀ v, ram.store ⟨target (ram (target (ram PGDIR_VA (vpn2 va).toNat)) (vpn1 va).toNat),
      (vpn0 va).toNat⟩ e PGDIR_VA v = ram PGDIR_VA v :=
    fun v => congrFun (Ram.store_page _ ⟨_, _⟩ _ hd.ne_PGDIR_VA.symm) v
  have hout : ∀ k, Outside k → ram.store ⟨target (ram (target (ram PGDIR_VA (vpn2 va).toNat)) (vpn1 va).toNat),
      (vpn0 va).toNat⟩ e k = ram k := by
    intro k ho
    refine Ram.store_page _ _ _ ?_
    rintro rfl
    exact ho.1 hd
  have hrole : ∀ k ∈ L, ∀ v2, κ k = .mid v2 →
      ram.store ⟨target (ram (target (ram PGDIR_VA (vpn2 va).toNat)) (vpn1 va).toNat),
        (vpn0 va).toNat⟩ e k = ram k := by
    intro k _ v2 hr
    refine Ram.store_page _ _ _ ?_
    rintro rfl
    exact nomatch hr.symm.trans hmid.role
  refine ⟨⟨fun v hv => ?_, fun k hk' v2 hr v1 hv => ?_, fun v hv hp hl => ?_, fun v hv hp hl v1 hp' hl' => ?_⟩,
    fun va' hn => ?_,
    fun va' hs hc hp hl => ?_⟩
  · rw [hk]
    exact h.io v hv
  · rw [hrole k hk' v2 hr]
    exact h.mid k hk' v2 hr v1 hv
  · rw [hk] at hp hl ⊢
    exact h.boot2 v hv hp hl
  · rw [hk] at hp hl hp' hl' ⊢
    rw [hout _ (h.boot2 v hv hp hl)] at hp' hl' ⊢
    exact h.boot1 v hv hp hl v1 hp' hl'
  · refine h.sv39_congr ⟨hk _, hout, fun k hk' hr => congrFun (hrole k hk' _ hr) _, fun k hk' hr => ?_⟩
    rw [Ram.store_apply, if_neg]
    intro he
    obtain ⟨rfl, hv⟩ := Ref.mk.inj he
    have hr' := hr.symm.trans hmid.role
    simp only [Role.leaf.injEq] at hr'
    exact hn ⟨UInt64.toNat_inj.mp hr'.1, UInt64.toNat_inj.mp hr'.2, UInt64.toNat_inj.mp hv⟩
  · obtain ⟨h2, h1, h0⟩ := hs
    rw [sv39_eq hc, h2, h1, h0, hk, htop.walkLevel,
      hrole _ htop.mem _ htop.role, hmid.walkLevel, Ram.store_apply, if_pos rfl,
      walkLevel_leaf hp hl]

end OsLab.Mm
