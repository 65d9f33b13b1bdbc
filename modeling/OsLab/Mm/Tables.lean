import OsLab.Mm.Invariant

/-!
# Writing to memory

Memory is written at three kinds of places: in the frame of a user page, where nothing of the invariant
lies; in an entry of a first-level table, by setting and clearing attributes; and in an empty entry of a
directory or table, for a new table or a new page.
-/

namespace OsLab.Mm

open Lib ProgM

variable {ρ ρ' : Roles} {s s' : Memory} {L : List UInt64} {pid : Int32}
    {role : Role} {kva d f va : UInt64} {r : Ref} {p : PageNode}

/-! ### Loads and stores -/

theorem Ram.store_page (ram : Ram) (r : Ref) (v : UInt64) (h : kva ≠ r.page) : ram.store r v kva = ram kva := by
  funext k
  exact if_neg fun hk => h hk.1

@[simp] theorem Ram.load_store (ram : Ram) (r : Ref) (v : UInt64) : (ram.store r v).load r = v := if_pos ⟨rfl, rfl⟩

theorem Ram.store_apply (ram : Ram) (r : Ref) (v : UInt64) (kva : UInt64) (k : ℕ) :
    ram.store r v kva k = if (⟨kva, k⟩ : Ref) = r then v else ram kva k := by
  obtain ⟨page, idx⟩ := r
  simp [Ram.store]

theorem Ram.load_store_of_ne (ram : Ram) {r r' : Ref} (v : UInt64) (h : r' ≠ r) :
    (ram.store r v).load r' = ram.load r' := by
  rw [Ram.load, Ram.store_apply, if_neg h]
  rfl

theorem Ram.fill_page (ram : Ram) (n : ℕ) (words : ℕ → UInt64) (h : kva ≠ f) : ram.fill f n words kva = ram kva := by
  funext k
  exact if_neg fun hk => h hk.1

/-! ### Memory that means the same -/

/-- Directories and second-level tables are the same, and a present entry of a first-level table was present
before, for the same page. -/
structure Fewer (ρ : Roles) (s : Memory) (ram' : Ram) : Prop where
  kernel_dir : ram' PGDIR_VA = s.ram PGDIR_VA
  dir : ∀ pid d, Has ρ s pid .dir d → ram' d = s.ram d
  mid : ∀ pid v2 d, Has ρ s pid (.mid v2) d → ram' d = s.ram d
  leaf : ∀ pid v2 v1 d, Has ρ s pid (.leaf v2 v1) d → ∀ v < 512, Present (ram' d v) →
    Present (s.ram d v) ∧ target (ram' d v) = target (s.ram d v)

/-- The entries of shared pages are the same, attributes apart. -/
def SameShared (s : Memory) (ram' : Ram) : Prop :=
  ∀ p ∈ s.user_page_mem_head, s.isShared p.addr = true → ∀ r, p.pte_entry = some r →
  (Present (s.ram.load r) → Present (ram'.load r)) ∧ target (ram'.load r) = target (s.ram.load r)

theorem Tables.ext_putRam (h : Tables ρ s) {g : Ram → Ram} (hf : Fewer ρ s (g s.ram)) : Ext ρ s ρ (s.putRam g) := by
  refine ⟨fun pid role kva hh => hh, fun pid d va r hd hk hw => ?_, hf.kernel_dir⟩
  obtain ⟨-, hmid, -⟩ := h.walk hd hk hw
  rw [← hw]
  exact uva2pte_congr (congrFun (hf.dir pid d hd) _) (congrFun (hf.mid pid _ _ hmid) _)

theorem Tables.putRam (h : Tables ρ s) {g : Ram → Ram} (hf : Fewer ρ s (g s.ram)) : Tables ρ (s.putRam g) := by
  have hx := h.ext_putRam hf
  refine ⟨fun pid d hd v hv hk => ?_, fun pid v2 d hd v hv => ?_,
    fun pid v2 v1 d hd v hv hp => ?_, fun p hp => (h.entry p hp).ext hx, h.unique⟩
  · rw [Memory.putRam_ram, hf.kernel_dir] at hk
    rw [Memory.putRam_ram, hf.dir pid d hd]
    exact h.dir pid d hd v hv hk
  · rw [Memory.putRam_ram, hf.mid pid v2 d hd]
    exact h.mid pid v2 d hd v hv
  · obtain ⟨hp', ht⟩ := hf.leaf pid v2 v1 d hd v hv hp
    rw [Memory.putRam_ram, ht]
    exact h.leaf pid v2 v1 d hd v hv hp'

theorem isShared_iff : s.isShared kva = true ↔ ∃ i, (s.shm_pages i).isUsing = true ∧ (s.shm_pages i).kva = kva := by
  simp [Memory.isShared]

theorem Sharing.putRam (h : Sharing s) {g : Ram → Ram} (hs : SameShared s (g s.ram)) : Sharing (s.putRam g) := by
  refine ⟨h.count, h.unused, h.inj, fun a ha => ?_, h.node, h.nodup, h.sole, h.soleSd, h.page⟩
  obtain ⟨hu, p, hp, hpid, huva, haddr, r, hr, hpres, ht⟩ := h.attached a ha
  obtain ⟨h1, h2⟩ := hs p hp (isShared_iff.mpr ⟨a.shm, hu, haddr.symm⟩) r hr
  exact ⟨hu, p, hp, hpid, huva, haddr, r, hr, h1 hpres, h2.trans ht⟩

theorem Frames.putRam (h : Frames L s) (g : Ram → Ram) : Frames L (s.putRam g) :=
  ⟨h.marked, h.taken, h.kernel, h.apart, h.user, h.distinct, h.kernel_uva, h.user_uva, h.pool, h.fresh⟩

theorem Inv.putRam (h : Inv ρ L s) {g : Ram → Ram} (hf : Fewer ρ s (g s.ram)) (hs : SameShared s (g s.ram)) :
    Inv ρ L (s.putRam g) :=
  ⟨h.frames.putRam g, h.tables.putRam hf, h.pids, h.sharing.putRam hs⟩

/-! ### Outside the tables -/

/-- Only the page `f` is written, and it is not in the kernel's list. -/
theorem fewer_of_page {g : Ram → Ram} (hf : IsFrame f) (hn : f ∉ s.kernel_page_head.map (·.addr))
    (hg : ∀ kva, kva ≠ f → g s.ram kva = s.ram kva) : Fewer ρ s (g s.ram) := by
  have hne : ∀ {pid role kva}, Has ρ s pid role kva → g s.ram kva = s.ram kva := by
    intro pid role kva hh
    refine hg kva ?_
    rintro rfl
    exact hn hh.mem
  refine ⟨hg _ hf.ne_PGDIR_VA.symm, fun _ d hd => hne hd, fun _ _ d hd => hne hd, fun _ _ _ d hd v _ hp => ?_⟩
  rw [hne hd] at hp ⊢
  exact ⟨hp, rfl⟩

theorem Inv.sameShared (h : Inv ρ L s) {g : Ram → Ram} (hn : f ∉ s.kernel_page_head.map (·.addr))
    (hg : ∀ kva, kva ≠ f → g s.ram kva = s.ram kva) : SameShared s (g s.ram) := by
  intro p hp _ r hr
  obtain ⟨r', hr', -, hh⟩ := h.tables.entry_has (h.tables.entry p (List.mem_append_left _ hp))
  obtain rfl := Option.some.inj (hr.symm.trans hr')
  have : (g s.ram).load r = s.ram.load r := by
    refine congrFun (hg r.page ?_) r.idx
    rintro rfl
    exact hn hh.mem
  rw [this]
  exact ⟨fun h => h, rfl⟩

/-- The frame `f` is written. -/
theorem Inv.write (h : Inv ρ L s) {g : Ram → Ram} (hf : IsFrame f) (hn : f ∉ s.kernel_page_head.map (·.addr))
    (hg : ∀ kva, kva ≠ f → g s.ram kva = s.ram kva) : Inv ρ L (s.putRam g) ∧ Ext ρ s ρ (s.putRam g) :=
  ⟨h.putRam (fewer_of_page hf hn hg) (h.sameShared hn hg), h.tables.ext_putRam (fewer_of_page hf hn hg)⟩

/-! ### Attributes -/

/-- An entry of a first-level table is written. -/
theorem Frames.fewer_entry (h : Frames L s) {v2 v1 : ℕ} (hr : Has ρ s pid (.leaf v2 v1) r.page) {v : UInt64}
    (hv : Present v → Present (s.ram.load r) ∧ target v = target (s.ram.load r)) : Fewer ρ s (s.ram.store r v) := by
  have hne : ∀ {pid role kva}, Has ρ s pid role kva → (∀ a b, role ≠ .leaf a b) → s.ram.store r v kva = s.ram kva := by
    intro pid role kva hh hl
    exact Ram.store_page _ _ _ (hh.ne_role hr.1 (hl v2 v1))
  refine ⟨Ram.store_page _ _ _ (h.isFrame_of_has hr).ne_PGDIR_VA.symm,
    fun _ d hd => hne hd (by simp), fun _ _ d hd => hne hd (by simp),
    fun _ _ _ d hd k _ hp => ?_⟩
  rw [Ram.store_apply] at hp ⊢
  split at hp
  · next he =>
    rw [if_pos he]
    obtain rfl := he
    exact hv hp
  · next he =>
    rw [if_neg he]
    exact ⟨hp, rfl⟩

/-- Attributes other than the present bit change in an entry. -/
theorem Inv.storeAttribute (h : Inv ρ L s) {v2 v1 : ℕ} (hr : Has ρ s pid (.leaf v2 v1) r.page) {v : UInt64}
    (hp : Present v ↔ Present (s.ram.load r)) (ht : target v = target (s.ram.load r)) :
    Inv ρ L (s.putRam fun ram => ram.store r v) ∧ Ext ρ s ρ (s.putRam fun ram => ram.store r v) := by
  have hf : Fewer ρ s (s.ram.store r v) := h.frames.fewer_entry hr fun hv => ⟨hp.mp hv, ht⟩
  refine ⟨h.putRam hf fun q _ _ r' _ => ?_, h.tables.ext_putRam hf⟩
  by_cases he : r' = r
  · subst he
    rw [Ram.load_store]
    exact ⟨hp.mpr, ht⟩
  · rw [Ram.load_store_of_ne _ _ he]
    exact ⟨fun h => h, rfl⟩

end OsLab.Mm
