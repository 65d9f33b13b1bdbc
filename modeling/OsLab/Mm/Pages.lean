import OsLab.Mm.Swap

/-!
# Adding pages

A frame that has been taken becomes a page: a stack, a directory or a table in the kernel's list (`Inv.newPage`),
or the page of an address in the list of user pages (`Inv.newUser`). A table is zero, and one entry that was
empty leads to it; the entry of a user page leads to it whatever it led to before.
-/

namespace OsLab.Mm

open Lib ProgM

variable {ρ ρ' : Roles} {s s' : Memory} {L : List UInt64} {pid : Int32}
    {role : Role} {kva d f va : UInt64} {r : Ref} {p n : PageNode}
  {ram' : Ram}

/-! ### Pages of the kernel's list -/

/-- The page `kva` is added with node `n`. -/
def Memory.addKernel (s : Memory) (ram : Ram) (n : PageNode) : Memory :=
  { s with ram := ram, kernel_page_head := s.kernel_page_head ++ [n] }

/-- The roles with that of one more page. -/
def Roles.set (ρ : Roles) (kva : UInt64) (role : Role) : Roles := Function.update ρ kva role

/-- An empty entry of a directory or second-level table that a new table is for. -/
def Slotted (ρ : Roles) (s : Memory) (pid : Int32) (r : Ref) : Role → Prop
  | .mid v2 => Has ρ s pid .dir r.page ∧ r.idx = v2
  | .leaf v2 v1 => Has ρ s pid (.mid v2) r.page ∧ r.idx = v1
  | _ => False

/-- The words of a new page, by its role. -/
def Blank (s : Memory) (pid : Int32) (ρ : Roles) (words : ℕ → UInt64) : Role → Prop
  | .stack => True
  | .dir => (∀ v < 512, s.ram PGDIR_VA v = 0 → words v = 0) ∧ ∀ d, ¬ Has ρ s pid .dir d
  | _ => ∀ v < 512, words v = 0

/-- What a new page of the kernel's list is: its node, its words, and that other memory changes only where an
empty entry now leads to it. -/
structure NewPage (ρ : Roles) (s : Memory) (kva : UInt64) (role : Role) (ram' : Ram) (n : PageNode) : Prop where
  addr : n.addr = kva
  uva : n.uva = kva
  pid : n.pid ≤ s.process_id
  blank : Blank s n.pid ρ (ram' kva) role
  ram : ∀ k, k ≠ kva → ∀ v,
    ram' k v = s.ram k v ∨ (s.ram k v = 0 ∧ target (ram' k v) = kva ∧ Slotted ρ s n.pid ⟨k, v⟩ role)

theorem Frames.addKernel (h : Frames (kva :: L) s) (ha : n.addr = kva) (hu : n.uva = kva) (hpool : FromKernel kva s) :
    Frames L (s.addKernel ram' n) := by
  have hlist : (s.kernel_page_head ++ [n]).map (·.addr) ++ L = s.kernel_page_head.map (·.addr) ++ kva :: L := by
    simp [ha]
  refine ⟨fun p hp => ?_, fun f hf => h.taken f (List.mem_cons_of_mem _ hf), ?_, fun p hp => ?_, h.user, h.distinct,
    fun p hp => ?_, h.user_uva, fun hfb p hp => ?_, h.fresh⟩
  · simp only [Memory.addKernel, List.mem_append, List.mem_singleton] at hp
    rcases hp with (hp | rfl) | hp
    · exact h.marked p (List.mem_append_left _ hp)
    · rw [ha]
      exact h.taken kva (List.mem_cons_self ..)
    · exact h.marked p (List.mem_append_right _ hp)
  · exact hlist ▸ h.kernel
  · exact hlist ▸ h.apart p hp
  · rcases List.mem_append.mp hp with hp | hp
    · exact h.kernel_uva p hp
    · obtain rfl := List.mem_singleton.mp hp
      rw [ha, hu]
  · rcases List.mem_append.mp hp with hp | hp
    · exact h.pool hfb p hp
    · obtain rfl := List.mem_singleton.mp hp
      rw [ha]
      exact hpool hfb

theorem Frames.taken_not_mem (h : Frames (kva :: L) s) : kva ∉ s.kernel_page_head.map (·.addr) := fun hm =>
  (List.nodup_append.mp h.kernel).2.2 _ hm _ (List.mem_cons_self ..) rfl

theorem Has.add (h : Has ρ s pid role f) (hn : kva ∉ s.kernel_page_head.map (·.addr)) (role' : Role) :
    Has (ρ.set kva role') (s.addKernel ram' n) pid role f := by
  have hne : f ≠ kva := by
    rintro rfl
    exact hn h.mem
  obtain ⟨hr, m, hm, ha, hp⟩ := h
  exact ⟨by rw [Roles.set, Function.update_of_ne hne, hr], m, List.mem_append_left _ hm, ha, hp⟩

theorem Has.of_add {role' : Role} (h : Has (ρ.set kva role') (s.addKernel ram' n) pid role f) (ha : n.addr = kva) :
    (f = kva ∧ role = role' ∧ pid = n.pid ∨ f = kva ∧ kva ∈ s.kernel_page_head.map (·.addr)) ∨
    (f ≠ kva ∧ Has ρ s pid role f) := by
  obtain ⟨hr, m, hm, hma, hp⟩ := h
  by_cases hf : f = kva
  · subst hf
    refine Or.inl ?_
    rcases List.mem_append.mp hm with hm | hm
    · exact Or.inr ⟨rfl, hma ▸ List.mem_map_of_mem hm⟩
    · obtain rfl := List.mem_singleton.mp hm
      rw [Roles.set, Function.update_self] at hr
      exact Or.inl ⟨rfl, hr.symm, hp.symm⟩
  · rw [Roles.set, Function.update_of_ne hf] at hr
    rcases List.mem_append.mp hm with hm | hm
    · exact Or.inr ⟨hf, hr, m, hm, hma, hp⟩
    · obtain rfl := List.mem_singleton.mp hm
      exact absurd (hma.symm.trans ha) hf

/-- Tables of other levels, and what is no table at all, are not written. -/
theorem NewPage.same (h : NewPage ρ s kva role ram' n) {k : UInt64} (hk : k ≠ kva)
    (hs : ∀ v, ¬ Slotted ρ s n.pid ⟨k, v⟩ role) : ram' k = s.ram k :=
  funext fun v => (h.ram k hk v).resolve_right fun hl => hs v hl.2.2

/-- An entry that is in use stays. -/
theorem NewPage.used (h : NewPage ρ s kva role ram' n) {k : UInt64} (hk : k ≠ kva) {v : ℕ} (hv : s.ram k v ≠ 0) :
    ram' k v = s.ram k v :=
  (h.ram k hk v).resolve_right fun hl => hv hl.1

theorem Slotted.has {v : ℕ} {k : UInt64} (h : Slotted ρ s pid ⟨k, v⟩ role) :
    ∃ role', Has ρ s pid role' k ∧ ∀ a b, role' ≠ .leaf a b := by
  cases role with
  | stack => exact h.elim
  | dir => exact h.elim
  | mid v2 => exact ⟨_, h.1, by simp⟩
  | leaf v2 v1 => exact ⟨_, h.1, by simp⟩

theorem NewPage.kernel_dir (h : NewPage ρ s kva role ram' n) (hf : Frames (kva :: L) s) :
    ram' PGDIR_VA = s.ram PGDIR_VA := by
  refine h.same ((hf.taken kva (List.mem_cons_self ..)).isFrame.ne_PGDIR_VA).symm fun v hs => ?_
  obtain ⟨role', hh, -⟩ := hs.has
  exact (hf.isFrame_of_has hh).ne_PGDIR_VA rfl

/-- First-level tables are not written. -/
theorem NewPage.leaf (h : NewPage ρ s kva role ram' n)
    (hn : kva ∉ s.kernel_page_head.map (·.addr)) {v2 v1 : ℕ} {k : UInt64}
    (hk : Has ρ s pid (.leaf v2 v1) k) : ram' k = s.ram k := by
  refine h.same ?_ fun v hs => ?_
  · rintro rfl
    exact hn hk.mem
  · obtain ⟨role', hh, hne⟩ := hs.has
    exact hne v2 v1 (hh.1.symm.trans hk.1)

theorem Tables.addKernel (ht : Tables ρ s) (hf : Frames (kva :: L) s) (h : NewPage ρ s kva role ram' n) :
    Ext ρ s (ρ.set kva role) (s.addKernel ram' n) ∧ Tables (ρ.set kva role) (s.addKernel ram' n) := by
  have hn := hf.taken_not_mem
  have hold : ∀ {pid role' f}, Has (ρ.set kva role) (s.addKernel ram' n) pid role' f →
      f = kva ∧ role' = role ∧ pid = n.pid ∨ f ≠ kva ∧ Has ρ s pid role' f := by
    intro pid role' f hh
    rcases hh.of_add h.addr with (h1 | ⟨-, h2⟩) | h3
    · exact Or.inl h1
    · exact absurd h2 hn
    · exact Or.inr h3
  have hadd : ∀ {pid role' f}, Has ρ s pid role' f → Has (ρ.set kva role) (s.addKernel ram' n) pid role' f :=
    fun hh => hh.add hn role
  have hx : Ext ρ s (ρ.set kva role) (s.addKernel ram' n) := by
    refine ⟨fun pid role' f hh => hadd hh, fun pid d va r hd hk hw => ?_, h.kernel_dir hf⟩
    obtain ⟨h2, hmid, h1, -⟩ := ht.walk hd hk hw
    have hne : ∀ {role' : Role} {k : UInt64}, Has ρ s pid role' k → k ≠ kva := by
      rintro role' k hh rfl
      exact hn hh.mem
    rw [← hw]
    exact uva2pte_congr (h.used (hne hd) h2) (h.used (hne hmid) h1)
  have hnew : Has (ρ.set kva role) (s.addKernel ram' n) n.pid role kva :=
    ⟨by rw [Roles.set, Function.update_self], n, List.mem_append_right _ (List.mem_singleton.mpr rfl), h.addr, rfl⟩
  have hblank := h.blank
  refine ⟨hx, fun pid d hd' v hv hk => ?_, fun pid v2 d hd' v hv => ?_,
    fun pid v2 v1 d hd' v hv hp => ?_, fun p hp => (ht.entry p hp).ext hx,
    fun pid d e hd' he' => ?_⟩
  · rcases hold hd' with ⟨rfl, rfl, rfl⟩ | ⟨hne, hd⟩
    · refine Or.inl (hblank.1 v hv ?_)
      rw [← h.kernel_dir hf]
      exact hk
    · have hk' : s.ram PGDIR_VA v = 0 := by
        rw [← h.kernel_dir hf]
        exact hk
      rcases h.ram d hne v with he | ⟨-, he, hs⟩
      · refine (ht.dir pid d hd v hv hk').imp (fun h0 => he.trans h0) fun hh => ?_
        have hh := hadd hh
        rwa [← he] at hh
      · refine Or.inr ?_
        show Has _ _ _ _ (target (ram' d v))
        rw [he]
        cases role with
        | mid v2 =>
          obtain ⟨hs, rfl⟩ := hs
          rw [(hf.has_unique hd hs).1]
          exact hnew
        | leaf v2 v1 => exact nomatch (hf.has_unique hd hs.1).2
        | stack => exact hs.elim
        | dir => exact hs.elim
  · rcases hold hd' with ⟨rfl, rfl, rfl⟩ | ⟨hne, hd⟩
    · exact Or.inl (hblank v hv)
    · rcases h.ram d hne v with he | ⟨-, he, hs⟩
      · refine (ht.mid pid v2 d hd v hv).imp (fun h0 => he.trans h0) fun hh => ?_
        have hh := hadd hh
        rwa [← he] at hh
      · refine Or.inr ?_
        show Has _ _ _ _ (target (ram' d v))
        rw [he]
        cases role with
        | mid v2' => exact nomatch (hf.has_unique hd hs.1).2
        | leaf v2' v1 =>
          obtain ⟨hs, rfl⟩ := hs
          obtain ⟨rfl, hr⟩ := hf.has_unique hd hs
          obtain rfl := Role.mid.inj hr
          exact hnew
        | stack => exact hs.elim
        | dir => exact hs.elim
  · rcases hold hd' with ⟨rfl, rfl, rfl⟩ | ⟨hne, hd⟩
    · exact absurd (hblank v hv) hp.ne_zero
    · have he : ram' d = s.ram d := h.leaf hn hd
      have hp' : Present (s.ram d v) := by
        rw [← he]
        exact hp
      obtain ⟨q, hq, hqp, hqr, hqa⟩ := ht.leaf pid v2 v1 d hd v hv hp'
      refine ⟨q, hq, hqp, hqr, hqa.trans ?_⟩
      rw [← he]
      rfl
  · rcases hold hd' with ⟨rfl, rfl, rfl⟩ | ⟨-, hd⟩
    · rcases hold he' with ⟨rfl, -, -⟩ | ⟨-, he⟩
      · rfl
      · exact absurd he (hblank.2 _)
    · rcases hold he' with ⟨rfl, rfl, rfl⟩ | ⟨-, he⟩
      · exact absurd hd (hblank.2 _)
      · exact ht.unique pid d e hd he

theorem Inv.newPage (h : Inv ρ (kva :: L) s) (hn : NewPage ρ s kva role ram' n) (hpool : FromKernel kva s) :
    Inv (ρ.set kva role) L (s.addKernel ram' n) ∧ Ext ρ s (ρ.set kva role) (s.addKernel ram' n) ∧
      Has (ρ.set kva role) (s.addKernel ram' n) n.pid role kva := by
  obtain ⟨hx, ht⟩ := h.tables.addKernel h.frames hn
  refine ⟨⟨h.frames.addKernel hn.addr hn.uva hpool, ht, fun p hp => ?_, ?_⟩, hx,
    by rw [Roles.set, Function.update_self], n, List.mem_append_right _ (List.mem_singleton.mpr rfl), hn.addr, rfl⟩
  · simp only [Memory.addKernel, List.mem_append, List.mem_singleton] at hp
    rcases hp with ((hp | rfl) | hp) | hp
    · exact h.pids p (List.mem_append_left _ (List.mem_append_left _ hp))
    · exact hn.pid
    · exact h.pids p (List.mem_append_left _ (List.mem_append_right _ hp))
    · exact h.pids p (List.mem_append_right _ hp)
  · have hs : SameShared s ram' := by
      intro p hp _ r hr
      obtain ⟨r', hr', -, hleaf⟩ := h.tables.entry_has (h.tables.entry p (List.mem_append_left _ hp))
      obtain rfl := Option.some.inj (hr.symm.trans hr')
      have he : ram'.load r = s.ram.load r := congrFun (hn.leaf h.frames.taken_not_mem hleaf) r.idx
      rw [he]
      exact ⟨fun h => h, rfl⟩
    have hsh := h.sharing.putRam (g := fun _ => ram') hs
    exact ⟨hsh.count, hsh.unused, hsh.inj, hsh.attached, hsh.node, hsh.nodup, hsh.sole, hsh.soleSd, hsh.page⟩

/-! ### Pages of user memory -/

/-- The node `q` is added, and the entry `r` leads to its page. -/
@[simps -fullyApplied] def Memory.addUser (s : Memory) (q : PageNode) (r : Ref) : Memory :=
  { s with
    ram := s.ram.store r (mapEntry (s.ram.load r) q.addr PAGE_MAPPED)
    user_page_mem_head := s.user_page_mem_head ++ [q] }

/-- No shared page has the entry `r`. -/
def Clear (r : Ref) (s : Memory) : Prop := ∀ p ∈ s.user_page_mem_head, s.isShared p.addr = true → p.pte_entry ≠ some r

theorem PAGE_MAPPED_lt : PAGE_MAPPED.toNat < 2 ^ 10 := by decide

theorem wbit_PAGE_MAPPED : wbit PAGE_MAPPED 0 = true := by decide

variable {q : PageNode}

theorem Frames.addUser (h : Frames (q.addr :: L) s) (hU : IsUserFrame q.addr) (huva : q.uva.toNat < 2 ^ 39) (r : Ref) :
    Frames L (s.addUser q r) := by
  have hperm :
      (s.kernel_page_head.map (·.addr) ++ q.addr :: L).Perm
      (q.addr :: (s.kernel_page_head.map (·.addr) ++ L)) :=
    List.perm_middle
  have hnodup := List.nodup_cons.mp (hperm.nodup_iff.mp h.kernel)
  have hapart : ∀ p ∈ s.user_page_mem_head, p.addr ≠ q.addr ∧ p.addr ∉ s.kernel_page_head.map (·.addr) ++ L := by
    intro p hp
    have := h.apart p hp
    rw [hperm.mem_iff, List.mem_cons, not_or] at this
    exact this
  refine ⟨fun p hp => ?_, fun f hf => h.taken f (List.mem_cons_of_mem _ hf),
    hnodup.2, fun p hp => ?_, fun p hp => ?_, ?_, h.kernel_uva,
    fun p hp => ?_, h.pool, h.fresh⟩
  · simp only [Memory.addUser, List.mem_append, List.mem_singleton] at hp
    rcases hp with hp | hp | rfl
    · exact h.marked p (List.mem_append_left _ hp)
    · exact h.marked p (List.mem_append_right _ hp)
    · exact h.taken _ (List.mem_cons_self ..)
  · rcases List.mem_append.mp hp with hp | hp
    · exact (hapart p hp).2
    · obtain rfl := List.mem_singleton.mp hp
      exact hnodup.1
  · rcases List.mem_append.mp hp with hp | hp
    · exact h.user p hp
    · obtain rfl := List.mem_singleton.mp hp
      exact hU
  · refine List.pairwise_append.mpr ⟨h.distinct, List.pairwise_singleton _ _, fun p hp q' hq' he => ?_⟩
    obtain rfl := List.mem_singleton.mp hq'
    exact absurd he (hapart p hp).1
  · simp only [Memory.addUser, List.mem_append, List.mem_singleton] at hp
    rcases hp with (hp | rfl) | hp
    · exact h.user_uva p (List.mem_append_left _ hp)
    · exact huva
    · exact h.user_uva p (List.mem_append_right _ hp)

/-- What an entry that is written leads to. -/
theorem Tables.addUser (ht : Tables ρ s) (hf : Frames L s)
    (he : Entry ρ s q) (hr : q.pte_entry = some r) (hq : IsFrame q.addr) :
    Tables ρ (s.addUser q r) ∧ Ext ρ s ρ (s.addUser q r) := by
  obtain ⟨r', hr', -, hleaf⟩ := ht.entry_has he
  obtain rfl := Option.some.inj (hr.symm.trans hr')
  have hne : ∀ {pid role k}, Has ρ s pid role k → (∀ a b, role ≠ .leaf a b) → (s.addUser q r).ram k = s.ram k :=
    fun hh hl => Ram.store_page _ _ _ (hh.ne_role hleaf.1 (hl _ _))
  have hx : Ext ρ s ρ (s.addUser q r) := by
    refine ⟨fun _ _ _ hh => hh, fun pid d va r hd hk hw => ?_,
      Ram.store_page _ _ _ (hf.isFrame_of_has hleaf).ne_PGDIR_VA.symm⟩
    obtain ⟨-, hmid, -⟩ := ht.walk hd hk hw
    rw [← hw]
    exact uva2pte_congr (congrFun (hne hd (by simp)) _) (congrFun (hne hmid (by simp)) _)
  refine ⟨⟨fun pid d hd v hv hk => ?_, fun pid v2 d hd v hv => ?_,
    fun pid v2 v1 d hd v hv hp => ?_, fun p hp => ?_, ht.unique⟩, hx⟩
  · rw [hx.kernel_dir] at hk
    rw [hne hd (by simp)]
    exact ht.dir pid d hd v hv hk
  · rw [hne hd (by simp)]
    exact ht.mid pid v2 d hd v hv
  · by_cases hv' : (⟨d, v⟩ : Ref) = r
    · subst hv'
      refine ⟨q, List.mem_append_right _ (List.mem_singleton.mpr rfl), (hf.has_unique hleaf hd).1, hr, ?_⟩
      rw [Memory.addUser_ram, Ram.store_apply, if_pos rfl, target_mapEntry _ hq PAGE_MAPPED_lt]
    · rw [Memory.addUser_ram, Ram.store_apply, if_neg hv'] at hp ⊢
      obtain ⟨p, hp, h⟩ := ht.leaf pid v2 v1 d hd v hv hp
      exact ⟨p, List.mem_append_left _ hp, h⟩
  · simp only [Memory.addUser, List.mem_append, List.mem_singleton] at hp
    rcases hp with (hp | rfl) | hp
    · exact (ht.entry p (List.mem_append_left _ hp)).ext hx
    · exact he.ext hx
    · exact (ht.entry p (List.mem_append_right _ hp)).ext hx

theorem Sharing.addUser (h : Sharing s) (hn : s.isShared q.addr = false) (hc : Clear r s) (hr : q.pte_entry = some r) :
    Sharing (s.addUser q r) := by
  have hno : ∀ {i}, (s.shm_pages i).isUsing = true → q.addr ≠ (s.shm_pages i).kva := by
    intro i hu he
    rw [isShared_iff.mpr ⟨i, hu, he.symm⟩] at hn
    cases hn
  refine ⟨h.count, h.unused, h.inj, fun a ha => ?_,
    fun p hp i hu he => ?_, h.nodup, ?_, fun p hp hs q' hq' => ?_, h.page⟩
  · obtain ⟨hu, p, hp, hpid, huva, haddr, r', hr', hpres, ht⟩ := h.attached a ha
    have hne : r' ≠ r := by
      rintro rfl
      exact hc p hp (isShared_iff.mpr ⟨a.shm, hu, haddr.symm⟩) hr'
    refine ⟨hu, p, List.mem_append_left _ hp, hpid, huva, haddr, r', hr', ?_⟩
    rw [Memory.addUser_ram, Ram.load_store_of_ne _ _ hne]
    exact ⟨hpres, ht⟩
  · rcases List.mem_append.mp hp with hp | hp
    · exact h.node p hp i hu he
    · obtain rfl := List.mem_singleton.mp hp
      exact absurd he (hno hu)
  · refine List.pairwise_append.mpr ⟨h.sole, List.pairwise_singleton _ _, fun p hp q' hq' hor => ?_⟩
    obtain rfl := List.mem_singleton.mp hq'
    rw [hr]
    refine hc p hp (hor.resolve_right fun hs => ?_)
    rw [show (s.addUser q' r).isShared q'.addr = s.isShared q'.addr from rfl, hn] at hs
    cases hs
  · rcases List.mem_append.mp hp with hp | hp
    · exact h.soleSd p hp hs q' hq'
    · obtain rfl := List.mem_singleton.mp hp
      rw [show (s.addUser p r).isShared p.addr = s.isShared p.addr from rfl, hn] at hs
      cases hs

theorem Inv.newUser (h : Inv ρ (q.addr :: L) s) (hU : IsUserFrame q.addr) (he : Entry ρ s q) (hr : q.pte_entry = some r)
    (huva : q.uva.toNat < 2 ^ 39) (hpid : q.pid ≤ s.process_id) (hc : Clear r s) :
    Inv ρ L (s.addUser q r) ∧ Ext ρ s ρ (s.addUser q r) := by
  obtain ⟨ht, hx⟩ := h.tables.addUser h.frames he hr hU.isFrame
  refine ⟨⟨h.frames.addUser hU huva r, ht, fun p hp => ?_,
    h.sharing.addUser (h.free (List.mem_cons_self ..)).2 hc hr⟩, hx⟩
  simp only [Memory.addUser, List.mem_append, List.mem_singleton] at hp
  rcases hp with (hp | hp | rfl) | hp
  · exact h.pids p (List.mem_append_left _ (List.mem_append_left _ hp))
  · exact h.pids p (List.mem_append_left _ (List.mem_append_right _ hp))
  · exact hpid
  · exact h.pids p (List.mem_append_right _ hp)

end OsLab.Mm
