import OsLab.Mm.Mapping

/-!
# Nodes of a page

How many nodes a process has for a user page (`Memory.nodes`), in memory and on the card together. Getting a
frame moves nodes from the one list to the other, and the tables that a page needs get nodes of their own;
so `alloc_page_helper` adds one node, for the page it maps (`alloc_page_helper_nodes`). This rests on frames
that are no user addresses (`Placed`), as it is after every step of a run (`Run.placed`).
-/

namespace OsLab.Mm

open Lib ProgM

/-- The nodes of process `pid` for the user page `uva`, in memory and on the card. -/
def Memory.nodes (s : Memory) (pid : Int32) (uva : UInt64) : ℕ :=
  (s.user_page_mem_head ++ s.user_page_sd_head).countP fun p => p.pid = pid ∧ p.uva = uva

/-- The user pages in memory and the shared pages are in frames. -/
structure Placed (s : Memory) : Prop where
  node : ∀ p ∈ s.user_page_mem_head, IsFrame p.addr
  shm : ∀ i, (s.shm_pages i).isUsing = true → IsFrame (s.shm_pages i).kva

/-- The step keeps pages in frames. -/
def Places (s s' : Memory) : Prop := Placed s → Placed s'

/-- The step takes and adds no node of a user page. -/
def SameNodes (s s' : Memory) : Prop := ∀ pid uva, s'.nodes pid uva = s.nodes pid uva

instance : Std.Refl Places := ⟨fun _ h => h⟩

instance : IsTrans Memory Places := ⟨fun _ _ _ h₁ h₂ h => h₂ (h₁ h)⟩

instance : Std.Refl SameNodes := ⟨fun _ _ _ => rfl⟩

instance : IsTrans Memory SameNodes := ⟨fun _ _ _ h₁ h₂ pid uva => (h₂ pid uva).trans (h₁ pid uva)⟩

variable {s s' : Memory} {i c : Slot} {t : Option Slot} {kva va uva pgdir : UInt64}

theorem Placed.of_subset (h : Placed s) (hm : s'.user_page_mem_head ⊆ s.user_page_mem_head)
    (hs : s'.shm_pages = s.shm_pages) : Placed s' := by
  refine ⟨fun p hp => h.node p (hm hp), fun i hi => ?_⟩
  rw [hs] at hi ⊢
  exact h.shm i hi

theorem Places.of_eq (hm : s'.user_page_mem_head = s.user_page_mem_head) (hs : s'.shm_pages = s.shm_pages) :
    Places s s' :=
  fun h => h.of_subset (hm ▸ List.Subset.refl _) hs

theorem setRam_placed (f : Ram → Ram) : Keeps Places (setRam f) := Keeps.modify fun _ => .of_eq rfl rfl

theorem setPcb_placed (f : Pcb → Pcb) : Keeps Places (setPcb i f) := Keeps.modify fun _ => .of_eq rfl rfl

theorem setRam_nodes (f : Ram → Ram) : Keeps SameNodes (setRam f) := Keeps.modify fun _ _ _ => rfl

/-! ### Frames -/

/-- A frame is given, and pages stay in frames. -/
def GivesFrame (s : Memory) (kva : UInt64) (s' : Memory) : Prop := Placed s → IsFrame kva ∧ Placed s'

theorem swap_page_out_placed (s : Memory) : Partial s swap_page_out (GivesFrame s) := by
  refine swap_page_out_spec.mono fun _ s' hs h => ?_
  obtain ⟨ram, p, ps, r, hs, -, rfl, rfl⟩ := hs
  have hperm := secondChance_perm _ hs
  exact ⟨h.node p (hperm.mem_iff.mpr (List.mem_cons_self ..)),
    h.of_subset (fun q hq => hperm.mem_iff.mpr (List.mem_cons_of_mem _ hq)) rfl⟩

/-- The node that is swapped out goes to the other list. -/
theorem swap_page_out_nodes : Keeps SameNodes swap_page_out := by
  refine fun s => swap_page_out_spec.mono fun _ s' hs pid uva => ?_
  obtain ⟨ram, p, ps, r, hs, -, -, rfl⟩ := hs
  have hperm := (secondChance_perm _ hs).countP_eq fun p => decide (p.pid = pid ∧ p.uva = uva)
  simp only [Memory.nodes, Memory.evict_user_page_mem_head,
    Memory.evict_user_page_sd_head, List.countP_append, List.countP_cons,
    List.countP_nil] at hperm ⊢
  omega

theorem GivesFrame.handOut (h : GivesFrame s kva s') : Partial s' (handOut kva) (GivesFrame s) := by
  refine (handOut_spec kva).mono fun a s'' hs hp => ?_
  obtain ⟨rfl, rfl⟩ := hs
  exact ⟨(h hp).1, (h hp).2.of_subset (List.Subset.refl _) rfl⟩

theorem handOut_nodes (kva : UInt64) : Keeps SameNodes (handOut kva) :=
  fun s => (handOut_spec kva).mono fun _ s' hs => by
  obtain ⟨-, rfl⟩ := hs
  exact fun _ _ => rfl

theorem alloc_user_page_placed (s : Memory) : Partial s alloc_user_page (GivesFrame s) := by
  refine Partial.get_bind ?_
  split
  · exact Partial.bind (swap_page_out_placed s) fun kva s' h => h.handOut
  · next n hn =>
    refine Partial.modify_bind (GivesFrame.handOut fun h => ⟨?_, h.of_subset (List.Subset.refl _) rfl⟩)
    exact isFrame_userFrame (find_free_pages_eq_some hn).1

theorem alloc_user_page_nodes : Keeps SameNodes alloc_user_page := by
  refine Keeps.read fun s => ?_
  split
  · exact swap_page_out_nodes.bind fun _ => handOut_nodes _
  · exact Keeps.bind (Keeps.modify fun _ _ _ => rfl) fun _ => handOut_nodes _

theorem alloc_kernel_page_placed : Keeps Places alloc_kernel_page := by
  have hhand : ∀ kva, Keeps Places (handOut kva) := fun kva s => (handOut_spec kva).mono fun _ s' hs => by
    obtain ⟨-, rfl⟩ := hs
    exact Places.of_eq rfl rfl
  refine Keeps.read fun s => ?_
  split
  · refine Keeps.bind (Keeps.modify fun _ => .of_eq rfl rfl) fun _ => Keeps.bind (fun s => ?_) fun _ => hhand _
    exact (swap_page_out_placed s).mono fun _ _ h hp => (h hp).2
  · exact Keeps.bind (Keeps.modify fun _ => .of_eq rfl rfl) fun _ => hhand _

theorem alloc_kernel_page_nodes : Keeps SameNodes alloc_kernel_page := by
  refine Keeps.read fun s => ?_
  split
  · exact Keeps.bind (Keeps.modify fun _ _ _ => rfl) fun _ => swap_page_out_nodes.bind fun _ => handOut_nodes _
  · exact Keeps.bind (Keeps.modify fun _ _ _ => rfl) fun _ => handOut_nodes _

/-! ### New nodes -/

/-- A page of the kernel. -/
theorem create_PageNode_kernel_placed : Keeps Places (create_PageNode kva kva pgdir i t) := fun s =>
  create_PageNode_kernel.mono fun _ s' hs => by
    subst hs
    exact Places.of_eq rfl rfl

theorem create_PageNode_kernel_nodes : Keeps SameNodes (create_PageNode kva kva pgdir i t) := fun s =>
  create_PageNode_kernel.mono fun _ s' hs => by
    subst hs
    exact fun _ _ => rfl

theorem newTable_placed (r : Ref) : Keeps Places (newTable r i t) :=
  alloc_kernel_page_placed.bind fun _ => create_PageNode_kernel_placed.bind fun _ =>
    (setRam_placed _).bind fun _ => setRam_placed _

theorem newTable_nodes (r : Ref) : Keeps SameNodes (newTable r i t) :=
  alloc_kernel_page_nodes.bind fun _ => create_PageNode_kernel_nodes.bind fun _ =>
    (setRam_nodes _).bind fun _ => setRam_nodes _

/-- What new tables keep, `pageTables` keeps. -/
theorem pageTables_keeps {r : Memory → Memory → Prop} [Std.Refl r]
    [IsTrans Memory r] (h : ∀ e, Keeps r (newTable e i t)) :
    Keeps r (pageTables va pgdir i t) :=
  Keeps.read fun _ => assert_keeps.bind fun _ => (ifThen_keeps (h _)).bind fun _ => Keeps.read fun _ =>
    (ifThen_keeps (h _)).bind fun _ => Keeps.read fun _ => Keeps.pure _

theorem mapPage_placed {lv1 : UInt64} (hkva : IsFrame kva) : Keeps Places (mapPage va kva lv1 i t) := fun s =>
  mapPage_spec.mono fun _ s' hs h => by
    obtain ⟨-, rfl⟩ := hs hkva
    refine ⟨fun p hp => ?_, h.shm⟩
    rcases List.mem_append.mp hp with hp | hp
    · exact h.node p hp
    · rw [List.mem_singleton.mp hp]
      exact hkva

theorem mapPage_nodes {lv1 : UInt64} (hkva : IsFrame kva) : Partial s (mapPage va kva lv1 i t) fun _ s' => ∀ pid uva,
    s'.nodes pid uva = s.nodes pid uva + if (s.pcb i).pid = pid ∧ va &&& VA_MASK = uva then 1 else 0 :=
  mapPage_spec.mono fun _ s' hs pid uva => by
    obtain ⟨-, rfl⟩ := hs hkva
    simp only [Memory.nodes, Memory.addUser, List.countP_append, List.countP_cons, List.countP_nil, decide_eq_true_eq]
    omega

/-- `alloc_page_helper` adds one node, for the page it maps. -/
theorem alloc_page_helper_nodes (hs : Placed s) : Partial s (alloc_page_helper va pgdir i t) fun _ s' => ∀ pid uva,
    s'.nodes pid uva = s.nodes pid uva + if (s.pcb i).pid = pid ∧ va &&& VA_MASK = uva then 1 else 0 := by
  have htables : Partial s (pageTables va pgdir i t) fun _ s₁ => (Quiet s s₁ ∧ Placed s₁) ∧ SameNodes s s₁ :=
    (Partial.and (pageTables_quiet va pgdir s) ((pageTables_keeps newTable_placed s).mono fun _ _ h => h hs)).and
      (pageTables_keeps newTable_nodes s)
  refine htables.bind fun lv1 s₁ ⟨⟨q₁, p₁⟩, n₁⟩ => ?_
  have hframe : Partial s₁ alloc_user_page fun kva s₂ => (Quiet s₁ s₂ ∧ IsFrame kva) ∧ SameNodes s₁ s₂ :=
    (Partial.and (alloc_user_page_quiet s₁) ((alloc_user_page_placed s₁).mono fun _ _ h => (h p₁).1)).and
      (alloc_user_page_nodes s₁)
  refine hframe.bind fun kva s₂ ⟨⟨q₂, hkva⟩, n₂⟩ =>
    (mapPage_nodes hkva).bind fun _ s₃ n₃ => Partial.pure fun pid uva => ?_
  rw [n₃, n₂, n₁, q₂.pcb, q₁.pcb]

/-! ### Every step -/

theorem alloc_page_helper_placed (s : Memory) : Partial s (alloc_page_helper va pgdir i t) (GivesFrame s) := by
  refine Partial.given fun hs => Partial.bind (pageTables_keeps newTable_placed s) fun lv1 s₁ h₁ => ?_
  refine Partial.bind (alloc_user_page_placed s₁) fun kva s₂ h₂ => ?_
  obtain ⟨hkva, hs₂⟩ := h₂ (h₁ hs)
  exact Partial.bind (mapPage_placed hkva s₂) fun _ s₃ h₃ => Partial.pure ⟨hkva, h₃ hs₂⟩

theorem alloc_page_helper_places : Keeps Places (alloc_page_helper va pgdir i t) := fun s =>
  (alloc_page_helper_placed s).mono fun _ _ h hs => (h hs).2

theorem swap_page_in_placed (p : PageNode) : Keeps Places (swap_page_in p) := by
  refine assert_keeps.bind fun _ =>
    Keeps.bind (Keeps.modify fun _ => .of_eq rfl rfl) fun _ s => Partial.given fun hs => ?_
  refine Partial.bind (alloc_user_page_placed s) fun kva s₁ h₁ => ?_
  obtain ⟨hkva, hs₁⟩ := h₁ hs
  refine Partial.perform_bind fun words => Partial.bind (setRam_placed _ s₁) fun _ s₂ h₂ => ?_
  split
  · exact Partial.stop
  · refine Partial.bind (setRam_placed _ s₂) fun _ s₃ h₃ => Partial.modify ?_
    have hs₃ := h₃ (h₂ hs₁)
    refine ⟨fun q hq => ?_, hs₃.shm⟩
    rcases List.mem_append.mp hq with hq | hq
    · exact hs₃.node q hq
    · rw [List.mem_singleton.mp hq]
      exact hkva

theorem checkLoop_placed (last : UInt64) (fuel : ℕ) (vpn : UInt64) : Keeps Places (checkLoop last i fuel vpn) := by
  induction fuel generalizing vpn with
  | zero => exact Keeps.stop
  | succ fuel ih =>
    refine Keeps.ite (Keeps.read fun s => ?_) (Keeps.pure _)
    split
    · exact ih _
    · exact (swap_page_in_placed _).bind fun _ => ih _

theorem check_uva_mem_placed (uva_begin len : UInt64) :
    Keeps Places (check_uva_mem uva_begin len i) := checkLoop_placed _ _ _

theorem checkCurrent_placed (uva_begin len : UInt64) : Keeps Places (checkCurrent uva_begin len t) := by
  cases t with
  | none => exact Keeps.pure _
  | some c => exact check_uva_mem_placed uva_begin len

theorem my_memcpy_placed (dest src : UInt64) (len : ℕ) : Keeps Places (my_memcpy dest src i len) := by
  have hcopy : ∀ dest src pgdir, Keeps Places (copyByte dest src pgdir) := by
    intro dest src pgdir
    refine Keeps.read fun s => ?_
    split
    · exact Keeps.stop
    · split
      · exact Keeps.stop
      · exact setRam_placed _
  induction len generalizing dest src with
  | zero => exact Keeps.pure _
  | succ len ih =>
    exact (check_uva_mem_placed _ _).bind fun _ => (check_uva_mem_placed _ _).bind fun _ => Keeps.read fun _ =>
      (hcopy _ _ _).bind fun _ => ih _ _

theorem loadPages_placed (pagenum : ℕ) (uva : UInt64) (n b : UInt32) :
    Keeps Places (loadPages i t pagenum uva n b) := by
  have hread : ∀ kva n b, Keeps Places (readSectors kva n b) := fun kva n b =>
    assert_keeps.bind fun _ => (Keeps.perform _).bind fun _ => setRam_placed _
  induction pagenum generalizing uva n b with
  | zero => exact Keeps.pure _
  | succ pagenum ih =>
    refine Keeps.read fun _ => alloc_page_helper_places.bind fun _ => Keeps.ite ?_ ?_
    · exact (hread _ _ _).bind fun _ => ih _ _ _
    · exact (ifThen_keeps (hread _ _ _)).bind fun _ => ih _ _ _

theorem putArgs_placed (kva : UInt64) (base off : ℕ) (args : List (UInt64 × List UInt8)) :
    Keeps Places (putArgs kva base t off args) := by
  induction args generalizing base off with
  | nil => exact Keeps.pure _
  | cons a args ih =>
    exact (checkCurrent_placed _ _).bind fun _ => assert_keeps.bind fun _ => (setRam_placed _).bind fun _ =>
      (setRam_placed _).bind fun _ => ih _ _

theorem setup_process_stack_placed (argv : UInt64) (args : List (UInt64 × List UInt8)) :
    Keeps Places (setup_process_stack i argv args t) :=
  Keeps.read fun _ => alloc_page_helper_places.bind fun _ => assert_keeps.bind fun _ => (setRam_placed _).bind fun _ =>
    (checkCurrent_placed _ _).bind fun _ => putArgs_placed _ _ _ _

theorem do_exec_placed (name : UInt64) (taskid : ℕ) (argv : UInt64) (args : List (UInt64 × List UInt8)) :
    Keeps Places (do_exec name taskid argv args t) := by
  have hpcb : ∀ i, Keeps Places (setup_process_pcb i t) := fun i =>
    Keeps.read fun s => assert_keeps.bind fun _ => Keeps.bind (Keeps.modify fun _ => .of_eq rfl rfl) fun _ =>
      (setPcb_placed _).bind fun _ => alloc_kernel_page_placed.bind fun _ =>
        create_PageNode_kernel_placed.bind fun _ => setPcb_placed _
  have hpgdir : ∀ i, Keeps Places (setup_pgdir i t) := fun i =>
    alloc_kernel_page_placed.bind fun _ => (setPcb_placed _).bind fun _ => create_PageNode_kernel_placed.bind fun _ =>
      (setRam_placed _).bind fun _ => setRam_placed _
  refine (checkCurrent_placed _ _).bind fun _ => Keeps.read fun s => ?_
  split
  · exact Keeps.pure _
  · next task _ =>
    split
    · exact Keeps.pure _
    · next i _ =>
      refine (hpcb i).bind fun _ => (hpgdir i).bind fun _ => Keeps.bind ?_ fun _ => ?_
      · exact (loadPages_placed _ _ _ _).bind fun _ => my_memcpy_placed _ _ _
      · exact (setup_process_stack_placed _ _).bind fun _ => setPcb_placed _

theorem init_pthread_pcb_placed (i : Slot) (thread : Int32) : Keeps Places (init_pthread_pcb i thread c) :=
  Keeps.read fun _ => (setPcb_placed _).bind fun _ => alloc_kernel_page_placed.bind fun _ =>
    create_PageNode_kernel_placed.bind fun _ => assert_keeps.bind fun _ => setPcb_placed _

theorem do_pthread_create_placed (thread : Int32) : Keeps Places (do_pthread_create thread c) := by
  refine Keeps.read fun s => ?_
  split
  · exact Keeps.pure _
  · next i _ =>
    refine (init_pthread_pcb_placed i thread).bind fun _ =>
      (setPcb_placed _).bind fun _ => Keeps.bind ?_ fun _ => setPcb_placed _
    exact Keeps.read fun _ => alloc_page_helper_places.bind fun _ => Keeps.pure _

theorem endTask_placed : Keeps Places (endTask i) := by
  refine Keeps.read fun s => Keeps.bind (ifThen_keeps (Keeps.bind (Keeps.modify fun s hs => ?_) fun _ => ?_)) fun _ =>
    setPcb_placed _
  · obtain ⟨kb, ub, h⟩ := releasePages_eq (s.pcb i).pid s
    rw [h]
    exact hs.of_subset (fun p hp => (List.mem_filter.mp hp).1) rfl
  · exact Keeps.modify fun _ => .of_eq rfl rfl

theorem killLoop_placed (pid : Int32) (fuel : ℕ) : Keeps Places (killLoop c pid fuel) := by
  induction fuel with
  | zero => exact Keeps.stop
  | succ fuel ih =>
    refine Keeps.read fun s => ?_
    split
    · exact Keeps.pure _
    · exact Keeps.ite endTask_placed (endTask_placed.bind fun _ => ih)

theorem handle_page_fault_placed (stval : UInt64) (scause : Access) :
    Keeps Places (handle_page_fault stval scause c) := by
  refine assert_keeps.bind fun _ => Keeps.read fun s => Keeps.ite endTask_placed ?_
  split
  · split
    · exact Keeps.stop
    · exact setRam_placed _
  · split
    · exact swap_page_in_placed _
    · exact Keeps.ite endTask_placed (alloc_page_helper_places.bind fun _ => Keeps.pure _)

theorem uvaLoop_placed (fuel : ℕ) : Keeps Places (uvaLoop c fuel) := by
  induction fuel with
  | zero => exact Keeps.stop
  | succ fuel ih =>
    refine Keeps.bind (Keeps.read fun s =>
      Keeps.bind (Keeps.modify fun _ => .of_eq rfl rfl) fun _ => Keeps.pure _) fun _ => ?_
    exact Keeps.read fun _ => Keeps.ite ih (Keeps.pure _)

theorem setShm_placed {j : Shm} {f : ShmPage → ShmPage}
    (hf : ∀ p, (p.isUsing = true → IsFrame p.kva) → (f p).isUsing = true → IsFrame (f p).kva) :
    Keeps Places (setShm j f) := by
  refine Keeps.modify fun s hs => ⟨hs.node, fun k hk => ?_⟩
  by_cases hkj : k = j
  · subst hkj
    rw [Memory.putShm_shm_pages, Function.update_self] at hk ⊢
    exact hf _ (hs.shm k) hk
  · rw [Memory.putShm_shm_pages, Function.update_of_ne hkj] at hk ⊢
    exact hs.shm k hk

theorem umap_page_placed (hkva : IsFrame kva) : Keeps Places (umap_page va (kva2pa kva) pgdir i t) := by
  have hback : pa2kva (kva2pa kva) = kva := UInt64.sub_add_cancel ..
  refine Keeps.bind (pageTables_keeps newTable_placed) fun _ => ?_
  rw [hback]
  exact mapPage_placed hkva

theorem delete_uva_page_subset (vpn : UInt64) (pid : Int32) (s : Memory) :
    (delete_uva_page vpn pid s).user_page_mem_head ⊆ s.user_page_mem_head ∧
    (delete_uva_page vpn pid s).shm_pages = s.shm_pages := by
  have hsd : ∀ s, (deleteFromSd vpn pid s).user_page_mem_head =
      s.user_page_mem_head ∧ (deleteFromSd vpn pid s).shm_pages = s.shm_pages := by
    intro s
    unfold deleteFromSd
    split
    · exact ⟨rfl, rfl⟩
    · exact ⟨rfl, rfl⟩
  rw [delete_uva_page, (hsd _).1, (hsd _).2]
  unfold deleteFromMem
  split
  · exact ⟨List.Subset.refl _, rfl⟩
  · exact ⟨List.erase_subset, rfl⟩

theorem shm_page_get_placed (key : Int32) : Keeps Places (shm_page_get key c) := by
  have hattach : ∀ uva j, Keeps Places (attach uva j c) := fun uva j => Keeps.modify fun _ => .of_eq rfl rfl
  intro s
  refine Partial.get_bind ?_
  split
  · next j hj =>
    refine Partial.given fun hs =>
      Partial.bind (Partial.and (uvaLoop_quiet _ s) (uvaLoop_placed _ s)) fun uva s₁ ⟨q₁, h₁⟩ =>
        Partial.get_bind ?_
    have hkva : IsFrame (s₁.shm_pages j).kva := by
      have hj' := List.find?_some hj
      rw [q₁.shm_pages]
      exact hs.shm j (of_decide_eq_true hj').1
    suffices hrest : Partial s₁ _ fun _ s' => Places s₁ s' from hrest.mono fun _ _ h => h (h₁ hs)
    refine Keeps.bind (umap_page_placed hkva) (fun _ => Keeps.bind (setShm_placed ?_) fun _ => ?_) s₁
    · exact fun p hp => hp
    · exact (hattach _ _).bind fun _ => Keeps.pure _
  · split
    · exact Partial.stop
    · next j _ =>
      refine Partial.given fun hs => Partial.bind (uvaLoop_placed _ s) fun uva s₁ h₁ => ?_
      refine Partial.bind (alloc_page_helper_placed s₁) fun kva s₂ h₂ => ?_
      obtain ⟨hkva, hs₂⟩ := h₂ (h₁ hs)
      suffices hrest : Partial s₂ _ fun _ s' => Places s₂ s' from hrest.mono fun _ _ h => h hs₂
      exact Keeps.bind (setShm_placed fun p _ _ => hkva) (fun _ => (hattach _ _).bind fun _ => Keeps.pure _) s₂

theorem shm_page_dt_placed (addr : UInt64) : Keeps Places (shm_page_dt addr c) := by
  refine Keeps.read fun s => ?_
  split
  · exact Keeps.stop
  · split
    · exact Keeps.pure _
    · refine Keeps.read fun s => assert_keeps.bind fun _ => Keeps.bind (Keeps.modify fun s hs => ?_) fun _ => ?_
      · exact hs.of_subset (delete_uva_page_subset _ _ s).1 (delete_uva_page_subset _ _ s).2
      · refine Keeps.bind (Keeps.modify fun _ => .of_eq rfl rfl) fun _ => (setRam_placed _).bind fun _ => ?_
        refine Keeps.bind (setShm_placed fun p hp => hp) fun _ => ifThen_keeps (setShm_placed fun p _ h => ?_)
        cases h

theorem act_placed (call : Call) : Keeps Places (act t call) := by
  cases t with
  | none =>
    cases call with
    | exec name taskid argv args => exact do_exec_placed name taskid argv args
    | _ => exact Keeps.stop
  | some c =>
    cases call with
    | exec name taskid argv args => exact do_exec_placed name taskid argv args
    | pthread_create thread => exact do_pthread_create_placed thread
    | exit => exact endTask_placed
    | kill pid => exact killLoop_placed pid _
    | fault stval scause => exact handle_page_fault_placed stval scause
    | shm_page_get key => exact (shm_page_get_placed key).bind fun _ => Keeps.pure _
    | shm_page_dt addr => exact shm_page_dt_placed addr
    | getbrk bss_end => exact setPcb_placed _
    | brk addr =>
      refine Keeps.bind (Keeps.read fun _ => Keeps.ite ?_ (Keeps.pure _)) fun _ => Keeps.pure _
      exact (setPcb_placed _).bind fun _ => Keeps.pure _
    | sbrk increment =>
      refine Keeps.bind (Keeps.read fun _ => Keeps.ite ?_ (Keeps.pure _)) fun _ => Keeps.pure _
      exact (setPcb_placed _).bind fun _ => Keeps.bind (Keeps.modify fun _ => .of_eq rfl rfl) fun _ => Keeps.pure _
    | store va v =>
      refine Keeps.read fun s => ?_
      split
      · exact Keeps.stop
      · exact setRam_placed _

/-- In a run from a state in which pages are in frames, they stay there. -/
theorem Run.placed {σ : Type} {h : Handler Op Op.Res σ} {start : Conf Memory σ → Prop}
    (hstart : ∀ z, start z → Placed z.mem) {steps : List Step}
    {z : Conf Memory σ} (hr : Run h start steps z) : Placed z.mem := by
  induction hr with
  | init hz => exact hstart _ hz
  | step _ _ he ih => exact act_placed _ _ _ _ _ _ _ he ih

end OsLab.Mm
