import OsLab.Lib.Hoare
import OsLab.Mm.Model

/-!
# What the functions leave alone

Getting a page, by whatever means, is `Quiet`: it changes memory, bitmaps and lists, but neither a PCB nor the
shared pages, and the history only grows. A new process or thread is set up in one PCB (`Setup`), and a task
that ends is only marked as such (`Ends`).
-/

namespace OsLab.Mm

open Lib ProgM

/-- The ranges that `do_sbrk` granted to a process. -/
def Memory.grants (s : Memory) (pid : Int32) : List (UInt64 × UInt64) :=
  s.log.filterMap fun
    | .granted p start increment => if p = pid then some (start, increment) else none
    | _ => none

/-- Pages are allocated and moved. -/
structure Quiet (s s' : Memory) : Prop where
  pcb : s'.pcb = s.pcb
  process_id : s'.process_id = s.process_id
  tasks : s'.tasks = s.tasks
  shm_pages : s'.shm_pages = s.shm_pages
  attached : s'.attached = s.attached
  log : s.log ⊆ s'.log
  grants : ∀ pid, s'.grants pid = s.grants pid

instance : Std.Refl Quiet := ⟨fun _ => ⟨rfl, rfl, rfl, rfl, rfl, fun _ h => h, fun _ => rfl⟩⟩

instance : IsTrans Memory Quiet := ⟨fun _ _ _ q₁ q₂ =>
  ⟨q₂.pcb.trans q₁.pcb, q₂.process_id.trans q₁.process_id, q₂.tasks.trans q₁.tasks, q₂.shm_pages.trans q₁.shm_pages,
    q₂.attached.trans q₁.attached, fun _ h => q₂.log (q₁.log h), fun pid => (q₂.grants pid).trans (q₁.grants pid)⟩⟩

variable {s : Memory} {i c : Slot} {t : Option Slot}

/-! ### Pages -/

theorem grants_append (s : Memory) (n : Note) (pid : Int32) :
    (s.note n).grants pid = s.grants pid ++ match n with
      | .granted p start increment => if p = pid then [(start, increment)] else []
      | _ => [] := by
  cases n with
  | granted p start increment =>
    by_cases h : p = pid
    · simp [Memory.grants, h]
    · simp [Memory.grants, h]
  | handed kva held isShared => simp [Memory.grants]
  | fallback => simp [Memory.grants]
  | evicted kva isShared => simp [Memory.grants]

theorem record_quiet {n : Note} (h : ∀ p a b, n ≠ .granted p a b) : Keeps Quiet (record n) := by
  refine Keeps.modify fun s => ⟨rfl, rfl, rfl, rfl, rfl, fun _ h => List.mem_append_left _ h, fun pid => ?_⟩
  rw [grants_append]
  cases n with
  | granted p a b => exact absurd rfl (h p a b)
  | _ => exact List.append_nil _

/-- Memory, bitmaps and lists change. -/
theorem Quiet.of_eq {s s' : Memory} (h1 : s'.pcb = s.pcb) (h2 : s'.process_id = s.process_id) (h3 : s'.tasks = s.tasks)
    (h4 : s'.shm_pages = s.shm_pages) (h5 : s'.attached = s.attached) (h6 : s'.log = s.log) : Quiet s s' :=
  ⟨h1, h2, h3, h4, h5, fun n hn => by rw [h6]; exact hn, fun pid => by rw [Memory.grants, Memory.grants, h6]⟩

theorem setRam_quiet (f : Ram → Ram) : Keeps Quiet (setRam f) := Keeps.modify fun _ => .of_eq rfl rfl rfl rfl rfl rfl

theorem assert_keeps {r : Memory → Memory → Prop} [Std.Refl r] {p : Prop} [Decidable p] : Keeps r (assert p) :=
  Keeps.ite (Keeps.pure _) Keeps.stop

theorem ifThen_keeps {r : Memory → Memory → Prop} [Std.Refl r]
    {p : Prop} [Decidable p] {x : MmM Unit} (hx : Keeps r x) :
    Keeps r (ifThen p x) := Keeps.ite hx (Keeps.pure _)

theorem swap_page_out_quiet : Keeps Quiet swap_page_out := by
  refine Keeps.read fun s => ?_
  split
  · exact Keeps.stop
  · split
    · exact Keeps.stop
    · refine Keeps.bind (Keeps.modify fun _ => .of_eq rfl rfl rfl rfl rfl rfl) fun _ => assert_keeps.bind fun _ => ?_
      refine Keeps.read fun s => (Keeps.perform _).bind fun _ => ?_
      refine Keeps.bind (Keeps.modify fun _ => .of_eq rfl rfl rfl rfl rfl rfl) fun _ => ?_
      exact Keeps.bind (record_quiet fun _ _ _ e => nomatch e) fun _ => Keeps.pure _

theorem handOut_quiet (kva : UInt64) : Keeps Quiet (handOut kva) :=
  Keeps.read fun _ => Keeps.bind (record_quiet fun _ _ _ e => nomatch e) fun _ => Keeps.pure _

theorem alloc_kernel_page_quiet : Keeps Quiet alloc_kernel_page := by
  refine Keeps.read fun s => ?_
  split
  · exact Keeps.bind (record_quiet fun _ _ _ e => nomatch e) fun _ => swap_page_out_quiet.bind fun _ => handOut_quiet _
  · exact Keeps.bind (Keeps.modify fun _ => .of_eq rfl rfl rfl rfl rfl rfl) fun _ => handOut_quiet _

theorem alloc_user_page_quiet : Keeps Quiet alloc_user_page := by
  refine Keeps.read fun s => ?_
  split
  · exact swap_page_out_quiet.bind fun _ => handOut_quiet _
  · exact Keeps.bind (Keeps.modify fun _ => .of_eq rfl rfl rfl rfl rfl rfl) fun _ => handOut_quiet _

theorem create_PageNode_quiet (kva uva pgdir : UInt64) : Keeps Quiet (create_PageNode kva uva pgdir i t) := by
  refine assert_keeps.bind fun _ => Keeps.read fun s => assert_keeps.bind fun _ => Keeps.ite ?_ ?_
  · exact Keeps.modify fun _ => .of_eq rfl rfl rfl rfl rfl rfl
  · exact Keeps.modify fun _ => .of_eq rfl rfl rfl rfl rfl rfl

theorem newTable_quiet (r : Ref) : Keeps Quiet (newTable r i t) :=
  alloc_kernel_page_quiet.bind fun _ => (create_PageNode_quiet _ _ _).bind fun _ =>
    (setRam_quiet _).bind fun _ => setRam_quiet _

theorem pageTables_quiet (va pgdir : UInt64) : Keeps Quiet (pageTables va pgdir i t) :=
  Keeps.read fun _ => assert_keeps.bind fun _ => (ifThen_keeps (newTable_quiet _)).bind fun _ => Keeps.read fun _ =>
    (ifThen_keeps (newTable_quiet _)).bind fun _ => Keeps.read fun _ => Keeps.pure _

theorem mapPage_quiet (va kva lv1 : UInt64) : Keeps Quiet (mapPage va kva lv1 i t) :=
  Keeps.read fun _ => (create_PageNode_quiet _ _ _).bind fun _ => setRam_quiet _

theorem alloc_page_helper_quiet (va pgdir : UInt64) : Keeps Quiet (alloc_page_helper va pgdir i t) :=
  (pageTables_quiet va pgdir).bind fun _ => alloc_user_page_quiet.bind fun _ =>
    (mapPage_quiet _ _ _).bind fun _ => Keeps.pure _

theorem umap_page_quiet (va pa pgdir : UInt64) : Keeps Quiet (umap_page va pa pgdir i t) :=
  (pageTables_quiet va pgdir).bind fun _ => mapPage_quiet _ _ _

theorem swap_page_in_quiet (p : PageNode) : Keeps Quiet (swap_page_in p) := by
  refine assert_keeps.bind fun _ =>
    Keeps.bind (Keeps.modify fun _ => .of_eq rfl rfl rfl rfl rfl rfl) fun _ =>
    alloc_user_page_quiet.bind fun _ => (Keeps.perform _).bind fun _ => (setRam_quiet _).bind fun _ => ?_
  split
  · exact Keeps.stop
  · exact (setRam_quiet _).bind fun _ => Keeps.modify fun _ => .of_eq rfl rfl rfl rfl rfl rfl

theorem checkLoop_quiet (last : UInt64) (fuel : ℕ) (vpn : UInt64) : Keeps Quiet (checkLoop last i fuel vpn) := by
  induction fuel generalizing vpn with
  | zero => exact Keeps.stop
  | succ fuel ih =>
    refine Keeps.ite (Keeps.read fun s => ?_) (Keeps.pure _)
    split
    · exact ih _
    · exact (swap_page_in_quiet _).bind fun _ => ih _

theorem check_uva_mem_quiet (uva_begin len : UInt64) :
    Keeps Quiet (check_uva_mem uva_begin len i) := checkLoop_quiet _ _ _

theorem checkCurrent_quiet (uva_begin len : UInt64) : Keeps Quiet (checkCurrent uva_begin len t) := by
  cases t with
  | none => exact Keeps.pure _
  | some c => exact check_uva_mem_quiet uva_begin len

/-! ### Loading a program -/

theorem copyByte_quiet (dest src pgdir : UInt64) : Keeps Quiet (copyByte dest src pgdir) := by
  refine Keeps.read fun s => ?_
  split
  · exact Keeps.stop
  · split
    · exact Keeps.stop
    · exact setRam_quiet _

theorem my_memcpy_quiet (dest src : UInt64) (len : ℕ) : Keeps Quiet (my_memcpy dest src i len) := by
  induction len generalizing dest src with
  | zero => exact Keeps.pure _
  | succ len ih =>
    exact (check_uva_mem_quiet _ _).bind fun _ => (check_uva_mem_quiet _ _).bind fun _ => Keeps.read fun _ =>
      (copyByte_quiet _ _ _).bind fun _ => ih _ _

theorem readSectors_quiet (kva : UInt64) (n b : UInt32) : Keeps Quiet (readSectors kva n b) :=
  assert_keeps.bind fun _ => (Keeps.perform _).bind fun _ => setRam_quiet _

theorem loadPages_quiet (pagenum : ℕ) (uva : UInt64) (n b : UInt32) : Keeps Quiet (loadPages i t pagenum uva n b) := by
  induction pagenum generalizing uva n b with
  | zero => exact Keeps.pure _
  | succ pagenum ih =>
    refine Keeps.read fun _ => (alloc_page_helper_quiet _ _).bind fun _ => Keeps.ite ?_ ?_
    · exact (readSectors_quiet _ _ _).bind fun _ => ih _ _ _
    · exact (ifThen_keeps (readSectors_quiet _ _ _)).bind fun _ => ih _ _ _

theorem load_task_img_quiet (task : TaskInfo) : Keeps Quiet (load_task_img i task t) :=
  (loadPages_quiet _ _ _ _).bind fun _ => my_memcpy_quiet _ _ _

theorem putArgs_quiet (kva : UInt64) (base off : ℕ) (args : List (UInt64 × List UInt8)) :
    Keeps Quiet (putArgs kva base t off args) := by
  induction args generalizing base off with
  | nil => exact Keeps.pure _
  | cons a args ih =>
    exact (checkCurrent_quiet _ _).bind fun _ => assert_keeps.bind fun _ =>
      (setRam_quiet _).bind fun _ => (setRam_quiet _).bind fun _ => ih _ _

theorem setup_process_stack_quiet (argv : UInt64) (args : List (UInt64 × List UInt8)) :
    Keeps Quiet (setup_process_stack i argv args t) :=
  Keeps.read fun _ => (alloc_page_helper_quiet _ _).bind fun _ =>
      assert_keeps.bind fun _ => (setRam_quiet _).bind fun _ =>
    (checkCurrent_quiet _ _).bind fun _ => putArgs_quiet _ _ _ _

/-! ### Tasks -/

/-- Pages are allocated, and a new task is set up in `pcb[i]`. -/
structure Setup (i : Slot) (s s' : Memory) : Prop where
  others : ∀ j, j ≠ i → s'.pcb j = s.pcb j
  exited : (s'.pcb i).exited = (s.pcb i).exited
  pid : (s'.pcb i).pid = (s.pcb i).pid
  brk : (s'.pcb i).brk = (s.pcb i).brk
  process_id : s'.process_id = s.process_id
  tasks : s'.tasks = s.tasks
  grants : ∀ pid, s'.grants pid = s.grants pid

instance : IsTrans Memory (Setup i) := ⟨fun _ _ _ q₁ q₂ =>
  ⟨fun j h => (q₂.others j h).trans (q₁.others j h),
    q₂.exited.trans q₁.exited, q₂.pid.trans q₁.pid, q₂.brk.trans q₁.brk,
    q₂.process_id.trans q₁.process_id, q₂.tasks.trans q₁.tasks, fun pid => (q₂.grants pid).trans (q₁.grants pid)⟩⟩

theorem Quiet.setup {s s' : Memory} (q : Quiet s s') : Setup i s s' := by
  have hp := q.pcb
  exact ⟨fun j _ => by rw [hp], by rw [hp], by rw [hp], by rw [hp], q.process_id, q.tasks, q.grants⟩

/-- `pcb[i]` gets new fields. -/
theorem setPcb_setup {f : Pcb → Pcb} (h1 : ∀ p, (f p).exited = p.exited)
    (h2 : ∀ p, (f p).pid = p.pid) (h3 : ∀ p, (f p).brk = p.brk) :
    Keeps (Setup i) (setPcb i f) := by
  refine Keeps.modify fun s => ⟨fun j hj => Function.update_of_ne hj .., ?_, ?_, ?_, rfl, rfl, fun _ => rfl⟩
  · simp [h1]
  · simp [h2]
  · simp [h3]

theorem setup_pgdir_setup : Keeps (Setup i) (setup_pgdir i t) := by
  refine Keeps.bind (alloc_kernel_page_quiet.mono fun _ _ => Quiet.setup) fun _ => ?_
  refine Keeps.bind (setPcb_setup (fun _ => rfl) (fun _ => rfl) fun _ => rfl) fun _ => ?_
  refine Keeps.bind ((create_PageNode_quiet _ _ _).mono fun _ _ => Quiet.setup) fun _ => ?_
  exact Keeps.bind ((setRam_quiet _).mono fun _ _ => Quiet.setup) fun _ => (setRam_quiet _).mono fun _ _ => Quiet.setup

theorem Partial.assert_bind {p : Prop} [Decidable p] {α : Type} {f : Unit → MmM α} {post : α → Memory → Prop}
    (hf : p → Partial s (f ()) post) : Partial s (assert p >>= f) post := by
  refine Partial.bind (q := fun _ s' => p ∧ s' = s)
    (Partial.ite (fun h => Partial.pure ⟨h, rfl⟩) fun _ => Partial.stop) ?_
  rintro _ s' ⟨hp, rfl⟩
  exact hf hp

theorem setup_process_pcb_spec : Partial s (setup_process_pcb i t) fun _ s' =>
    s.process_id < Int32.maxValue ∧
      Setup i (Memory.putPcb { s with process_id := s.process_id + 1 } i fun p =>
        { p with pid := s.process_id + 1 }) s' := by
  refine Partial.get_bind (Partial.assert_bind fun hlt => Partial.modify_bind (Partial.modify_bind ?_))
  have hrest : ∀ s₁ : Memory,
      Partial s₁ (alloc_kernel_page >>= fun kva => create_PageNode kva kva PGDIR_VA i t >>= fun _ =>
      setPcb i fun p =>
        { p with kernel_stack_base := kva + PAGE_SIZE, user_stack_base := USER_STACK_ADDR, pthread_id := 0 })
      fun _ => Setup i s₁ := by
    refine Keeps.bind (r := Setup i) (alloc_kernel_page_quiet.mono fun _ _ => Quiet.setup) fun _ => ?_
    refine Keeps.bind ((create_PageNode_quiet _ _ _).mono fun _ _ => Quiet.setup) fun _ => ?_
    exact setPcb_setup (fun _ => rfl) (fun _ => rfl) fun _ => rfl
  exact (hrest _).mono fun _ s' hs => ⟨hlt, hs⟩

/-- What a step does to the tasks that go on: they are those of before, or a new process, or a new thread
of the running task. -/
structure Spawns (t : Option Slot) (s s' : Memory) : Prop where
  process_id : s.process_id ≤ s'.process_id
  grants : ∀ pid, s'.grants pid = s.grants pid
  task : ∀ j, (s'.pcb j).exited = false → ((s.pcb j).exited = false ∧ s'.pcb j = s.pcb j) ∨
    (s.process_id < (s'.pcb j).pid ∧ (s'.pcb j).pid ≤ s'.process_id) ∨
    ∃ c, t = some c ∧ (s'.pcb j).pid = (s.pcb c).pid ∧ (s'.pcb j).brk = (s.pcb c).brk

theorem Quiet.spawns {s s' : Memory} (q : Quiet s s') : Spawns t s s' := by
  refine ⟨by rw [q.process_id]; exact Int32.le_refl _, q.grants, fun j hj => Or.inl ?_⟩
  rw [q.pcb] at hj ⊢
  exact ⟨hj, rfl⟩

theorem Spawns.trans_quiet {s s' s'' : Memory} (q : Quiet s s') (h : Spawns t s' s'') : Spawns t s s'' := by
  refine ⟨by rw [← q.process_id]; exact h.process_id, fun pid => (h.grants pid).trans (q.grants pid), fun j hj => ?_⟩
  have := h.task j hj
  rwa [q.pcb, q.process_id] at this

theorem exited_of_get_free_pcb {pcb : Slot → Pcb} (h : get_free_pcb pcb = some i) : (pcb i).exited = true := by
  simpa using List.find?_some h

theorem lt_succ_of_lt {p : Int32} (h : p < Int32.maxValue) : p < p + 1 := by
  rw [Int32.lt_iff_toInt_lt] at h ⊢
  have hlo := p.le_toInt
  have hmax : Int32.maxValue.toInt = 2147483647 := rfl
  rw [hmax] at h
  rw [Int32.toInt_add, Int32.toInt_one, Int.bmod_eq_of_le (by omega) (by omega)]
  omega

theorem do_exec_spawns {o : Option Slot} (name : UInt64) (taskid : ℕ)
    (argv : UInt64) (args : List (UInt64 × List UInt8)) :
    Keeps (Spawns o) (do_exec name taskid argv args t) := by
  intro s
  refine Partial.bind (checkCurrent_quiet name 32 s) fun _ s₁ q => ?_
  refine (Partial.get_bind ?_ : Partial s₁ _ fun _ => Spawns o s₁).mono fun _ _ h => h.trans_quiet q
  split
  · exact Partial.pure (Quiet.spawns (Std.Refl.refl _))
  · next task _ =>
    split
    · exact Partial.pure (Quiet.spawns (Std.Refl.refl _))
    · next i hi =>
      have hex := exited_of_get_free_pcb hi
      refine Partial.bind setup_process_pcb_spec fun _ s₂ h₂ => ?_
      obtain ⟨hlt, h₂⟩ := h₂
      refine Partial.bind (setup_pgdir_setup s₂) fun _ s₃ h₃ => ?_
      refine Partial.bind (load_task_img_quiet task s₃) fun _ s₄ h₄ => ?_
      refine Partial.bind (setup_process_stack_quiet argv args s₄) fun _ s₅ h₅ => Partial.modify ?_
      have h := IsTrans.trans (r := Setup i) _ _ _ h₂
        (IsTrans.trans (r := Setup i) _ _ _ h₃ (IsTrans.trans _ _ _ h₄ h₅).setup)
      have hsucc := lt_succ_of_lt hlt
      refine ⟨?_, h.grants, fun j hj => ?_⟩
      · rw [Memory.putPcb_process_id, h.process_id]
        exact Int32.le_of_lt hsucc
      · by_cases hji : j = i
        · subst hji
          refine Or.inr (Or.inl ?_)
          simp [h.pid, h.process_id, hsucc]
        · refine Or.inl ?_
          have hpcb := h.others j hji
          simp only [Memory.putPcb_pcb, Function.update_of_ne hji] at hj hpcb ⊢
          rw [hpcb] at hj
          exact ⟨hj, hpcb⟩

/-- After `init_pthread_pcb` and the assignment of `pgdir`, `pcb[i]` belongs to the process of `c` and has its break. -/
theorem init_pthread_pcb_spec (thread : Int32) : Partial s (init_pthread_pcb i thread c) fun _ s' =>
    Setup i ((s.putPcb i fun p => { p with pid := (s.pcb c).pid }).putPcb i fun p =>
        { p with brk := (s.pcb c).brk }) s' := by
  refine Partial.get_bind (Partial.modify_bind ?_)
  refine Partial.bind (alloc_kernel_page_quiet _) fun kva s₁ q₁ => ?_
  refine Partial.bind (create_PageNode_quiet _ _ _ _) fun _ s₂ q₂ => Partial.assert_bind fun _ => Partial.modify ?_
  have q := IsTrans.trans (r := Quiet) _ _ _ q₁ q₂
  have hp := q.pcb
  refine ⟨fun j hj => ?_, ?_, ?_, ?_, q.process_id, q.tasks, fun pid => ?_⟩
  · simp [hp, Function.update_of_ne hj]
  · simp [hp]
  · simp [hp]
  · simp
  · exact q.grants pid

theorem do_pthread_create_spawns (thread : Int32) : Keeps (Spawns (some c)) (do_pthread_create thread c) := by
  refine fun s => Partial.get_bind ?_
  split
  · exact Partial.pure (Quiet.spawns (Std.Refl.refl _))
  · next i hi =>
    refine Partial.bind (init_pthread_pcb_spec thread) fun _ s₁ h₁ => ?_
    have hset : Keeps (Setup i) (setPcb i fun p => { p with pgdir := (s.pcb c).pgdir }) :=
      setPcb_setup (fun _ => rfl) (fun _ => rfl) fun _ => rfl
    refine Partial.bind (hset s₁) fun _ s₂ h₂ => ?_
    refine Partial.bind (q := fun _ => Quiet s₂) ?_ fun _ s₃ h₃ => Partial.modify ?_
    · exact Partial.get_bind (Partial.bind (alloc_page_helper_quiet _ _ s₂) fun _ _ q => Partial.pure q)
    · have h := IsTrans.trans (r := Setup i) _ _ _ h₁ (IsTrans.trans (r := Setup i) _ _ _ h₂ h₃.setup)
      refine ⟨?_, h.grants, fun j hj => ?_⟩
      · rw [Memory.putPcb_process_id, h.process_id]
        exact Int32.le_refl _
      · by_cases hji : j = i
        · subst hji
          refine Or.inr (Or.inr ⟨c, rfl, ?_⟩)
          simp [h.pid, h.brk]
        · refine Or.inl ?_
          have hpcb := h.others j hji
          simp only [Memory.putPcb_pcb, Function.update_of_ne hji] at hj hpcb ⊢
          rw [hpcb] at hj
          exact ⟨hj, hpcb⟩

/-- Tasks may end, and none is added. -/
structure Ends (s s' : Memory) : Prop where
  process_id : s'.process_id = s.process_id
  grants : ∀ pid, s'.grants pid = s.grants pid
  task : ∀ j, s'.pcb j = s.pcb j ∨ (s'.pcb j).exited = true

instance : Std.Refl Ends := ⟨fun _ => ⟨rfl, fun _ => rfl, fun _ => Or.inl rfl⟩⟩

instance : IsTrans Memory Ends := ⟨fun _ _ _ e₁ e₂ => by
  refine ⟨e₂.process_id.trans e₁.process_id, fun pid => (e₂.grants pid).trans (e₁.grants pid), fun j => ?_⟩
  rcases e₂.task j with h | h
  · rw [h]
    exact e₁.task j
  · exact Or.inr h⟩

theorem Ends.spawns {s s' : Memory} (e : Ends s s') : Spawns t s s' := by
  refine ⟨by rw [e.process_id]; exact Int32.le_refl _, e.grants, fun j hj => Or.inl ?_⟩
  rcases e.task j with h | h
  · rw [h] at hj
    exact ⟨hj, h⟩
  · rw [hj] at h
    cases h

/-- What giving pages back leaves alone. -/
theorem recycle_node_from_list_eq (pid : Int32) (b : Bool) (ps : List PageNode) (s : Memory) :
    (recycle_node_from_list pid b ps s).1 = ps.filter (·.pid ≠ pid) ∧ ∃ kb ub,
      (recycle_node_from_list pid b ps s).2 = { s with kernel_bitmap := kb, user_bitmap := ub } := by
  induction ps generalizing s with
  | nil => exact ⟨rfl, s.kernel_bitmap, s.user_bitmap, rfl⟩
  | cons p ps ih =>
    by_cases hp : p.pid = pid
    · simp only [recycle_node_from_list, hp, if_true]
      cases b with
      | false => simpa [hp] using ih s
      | true =>
        obtain ⟨h1, kb, ub, h2⟩ := ih (recycleFrame p s)
        refine ⟨by simpa [hp] using h1, kb, ub, ?_⟩
        rw [if_pos rfl, h2]
        simp only [recycleFrame]
        split
        · rfl
        · rfl
    · simp only [recycle_node_from_list, hp, if_false]
      obtain ⟨h1, kb, ub, h2⟩ := ih s
      exact ⟨by simp [hp, h1], kb, ub, h2⟩

theorem releasePages_eq (pid : Int32) (s : Memory) : ∃ kb ub, releasePages pid s = { s with
    kernel_bitmap := kb
    user_bitmap := ub
    kernel_page_head := s.kernel_page_head.filter (·.pid ≠ pid)
    user_page_mem_head := s.user_page_mem_head.filter (·.pid ≠ pid)
    user_page_sd_head := s.user_page_sd_head.filter (·.pid ≠ pid) } := by
  obtain ⟨h1, kb₁, ub₁, e₁⟩ := recycle_node_from_list_eq pid true s.kernel_page_head s
  simp only [releasePages, h1, e₁]
  obtain ⟨h2, kb₂, ub₂, e₂⟩ := recycle_node_from_list_eq pid true s.user_page_mem_head
    { s with kernel_bitmap := kb₁, user_bitmap := ub₁, kernel_page_head := s.kernel_page_head.filter (·.pid ≠ pid) }
  simp only [h2, e₂]
  obtain ⟨h3, kb₃, ub₃, e₃⟩ := recycle_node_from_list_eq pid false s.user_page_sd_head { s with
    kernel_bitmap := kb₂
    user_bitmap := ub₂
    kernel_page_head := s.kernel_page_head.filter (·.pid ≠ pid)
    user_page_mem_head := s.user_page_mem_head.filter (·.pid ≠ pid) }
  simp only [h3, e₃]
  exact ⟨kb₃, ub₃, rfl⟩

theorem endTask_ends : Keeps Ends (endTask i) := by
  refine Keeps.read fun s => Keeps.bind (ifThen_keeps (Keeps.bind ?_ fun _ => ?_)) fun _ => ?_
  · refine Keeps.modify fun s => ?_
    obtain ⟨kb, ub, h⟩ := releasePages_eq (s.pcb i).pid s
    rw [h]
    exact ⟨rfl, fun _ => rfl, fun _ => Or.inl rfl⟩
  · exact Keeps.modify fun s => ⟨rfl, fun _ => rfl, fun _ => Or.inl rfl⟩
  · refine Keeps.modify fun s => ⟨rfl, fun _ => rfl, fun j => ?_⟩
    by_cases h : j = i
    · subst h
      simp
    · simp [h]

theorem killLoop_ends (pid : Int32) (fuel : ℕ) : Keeps Ends (killLoop c pid fuel) := by
  induction fuel with
  | zero => exact Keeps.stop
  | succ fuel ih =>
    refine Keeps.read fun s => ?_
    split
    · exact Keeps.pure _
    · exact Keeps.ite endTask_ends (endTask_ends.bind fun _ => ih)

theorem Quiet.ends {s s' : Memory} (q : Quiet s s') : Ends s s' := by
  have hp := q.pcb
  exact ⟨q.process_id, q.grants, fun j => Or.inl (by rw [hp])⟩

/-- The variables of `shm_page_get` and `shm_page_dt` change. -/
theorem Ends.of_eq {s s' : Memory} (h1 : s'.pcb = s.pcb)
    (h2 : s'.process_id = s.process_id) (h3 : s'.log = s.log) : Ends s s' :=
  ⟨h2, fun pid => by rw [Memory.grants, Memory.grants, h3], fun j => Or.inl (by rw [h1])⟩

theorem uvaLoop_quiet (fuel : ℕ) : Keeps Quiet (uvaLoop c fuel) := by
  induction fuel with
  | zero => exact Keeps.stop
  | succ fuel ih =>
    refine Keeps.bind (Keeps.read fun _ => Keeps.bind (Keeps.modify fun _ => ?_) fun _ => Keeps.pure _) fun _ => ?_
    · exact .of_eq rfl rfl rfl rfl rfl rfl
    · exact Keeps.read fun _ => Keeps.ite ih (Keeps.pure _)

theorem shm_page_get_ends (key : Int32) : Keeps Ends (shm_page_get key c) := by
  have hset : ∀ i f, Keeps Ends (setShm i f) := fun i f => Keeps.modify fun _ => .of_eq rfl rfl rfl
  have hatt : ∀ uva i, Keeps Ends (attach uva i c) := fun uva i => Keeps.modify fun _ => .of_eq rfl rfl rfl
  have huva : Keeps Ends (freeUva c) := (uvaLoop_quiet _).mono fun _ _ => Quiet.ends
  refine Keeps.read fun s => ?_
  split
  · refine huva.bind fun _ => Keeps.read fun _ =>
      Keeps.bind ((umap_page_quiet _ _ _).mono fun _ _ => Quiet.ends) fun _ => ?_
    exact (hset _ _).bind fun _ => (hatt _ _).bind fun _ => Keeps.pure _
  · split
    · exact Keeps.stop
    · refine huva.bind fun _ => Keeps.bind ((alloc_page_helper_quiet _ _).mono fun _ _ => Quiet.ends) fun _ => ?_
      exact (hset _ _).bind fun _ => (hatt _ _).bind fun _ => Keeps.pure _

theorem delete_uva_page_ends (vpn : UInt64) (pid : Int32) (s : Memory) : Ends s (delete_uva_page vpn pid s) := by
  have hmem : Ends s (deleteFromMem vpn pid s) := by
    unfold deleteFromMem
    split
    · exact Std.Refl.refl s
    · exact .of_eq rfl rfl rfl
  refine IsTrans.trans _ _ _ hmem ?_
  unfold delete_uva_page deleteFromSd
  split
  · exact Std.Refl.refl _
  · exact .of_eq rfl rfl rfl

theorem shm_page_dt_ends (addr : UInt64) : Keeps Ends (shm_page_dt addr c) := by
  have hset : ∀ i f, Keeps Ends (setShm i f) := fun i f => Keeps.modify fun _ => .of_eq rfl rfl rfl
  refine Keeps.read fun s => ?_
  split
  · exact Keeps.stop
  · split
    · exact Keeps.pure _
    · refine Keeps.read fun s => assert_keeps.bind fun _ =>
        Keeps.bind (Keeps.modify fun s => delete_uva_page_ends _ _ s) fun _ => ?_
      refine Keeps.bind (Keeps.modify fun _ => .of_eq rfl rfl rfl) fun _ => ?_
      exact Keeps.bind ((setRam_quiet _).mono fun _ _ => Quiet.ends) fun _ =>
        (hset _ _).bind fun _ => ifThen_keeps (hset _ _)

theorem handle_page_fault_spawns (stval : UInt64) (scause : Access) :
    Keeps (Spawns t) (handle_page_fault stval scause c) := by
  refine fun s => Partial.assert_bind fun _ => Partial.get_bind (Partial.ite (fun _ => ?_) fun _ => ?_)
  · exact (endTask_ends s).mono fun _ _ => Ends.spawns
  · split
    · split
      · exact Partial.stop
      · exact (setRam_quiet _ s).mono fun _ _ => Quiet.spawns
    · split
      · exact (swap_page_in_quiet _ s).mono fun _ _ => Quiet.spawns
      · refine Partial.ite (fun _ => ?_) fun _ => ?_
        · exact (endTask_ends s).mono fun _ _ => Ends.spawns
        · exact Partial.bind (alloc_page_helper_quiet _ _ s) fun _ _ q => Partial.pure (Quiet.spawns q)

theorem userStore_quiet (va v : UInt64) : Keeps Quiet (userStore va v c) := by
  refine Keeps.read fun s => ?_
  split
  · exact Keeps.stop
  · exact setRam_quiet _

theorem do_brk_spec (addr : UInt64) : Partial s (do_brk addr c) fun ok s' =>
    if (s.pcb c).brk < ROUNDDOWN addr ∧ ROUNDDOWN addr < USER_STACK_END
    then ok = true ∧ s' = s.putPcb c fun p => { p with brk := addr } else ok = false ∧ s' = s := by
  refine Partial.get_bind (Partial.ite (fun h => ?_) fun h => ?_)
  · simp only [if_pos h]
    exact Partial.modify_bind (Partial.pure ⟨rfl, rfl⟩)
  · simp only [if_neg h]
    exact Partial.pure ⟨rfl, rfl⟩

theorem act_brk (addr : UInt64) : Partial s (act (some c) (.brk addr)) fun _ s' =>
    (s' = s.putPcb c fun p => { p with brk := addr }) ∨ s' = s := by
  refine (do_brk_spec addr).bind fun ok s' hs => Partial.pure ?_
  split at hs
  · exact Or.inl hs.2
  · exact Or.inr hs.2

/-- The calls that move a break. -/
def Call.movesBreak : Call → Bool
  | .getbrk _ => true
  | .brk _ => true
  | .sbrk _ => true
  | _ => false

/-- A step that creates no thread leaves the tasks that go on as they are, or starts a new process. -/
theorem act_spawns_none (call : Call) (h : call.movesBreak = false) (hcall : ∀ thread, call ≠ .pthread_create thread) :
    Keeps (Spawns none) (act t call) := by
  cases t with
  | none =>
    cases call with
    | exec name taskid argv args => exact do_exec_spawns name taskid argv args
    | _ => exact Keeps.stop
  | some c =>
    cases call with
    | exec name taskid argv args => exact do_exec_spawns name taskid argv args
    | pthread_create thread => exact absurd rfl (hcall thread)
    | exit => exact endTask_ends.mono fun _ _ => Ends.spawns
    | kill pid => exact (killLoop_ends pid _).mono fun _ _ => Ends.spawns
    | fault stval scause => exact handle_page_fault_spawns stval scause
    | shm_page_get key =>
      exact fun s => Partial.bind (shm_page_get_ends key s) fun _ _ e => Partial.pure e.spawns
    | shm_page_dt addr => exact (shm_page_dt_ends addr).mono fun _ _ => Ends.spawns
    | store va v => exact (userStore_quiet va v).mono fun _ _ => Quiet.spawns
    | getbrk _ => cases h
    | brk _ => cases h
    | sbrk _ => cases h

theorem Spawns.of_none {s s' : Memory} (h : Spawns none s s') : Spawns t s s' := by
  refine ⟨h.process_id, h.grants, fun j hj => (h.task j hj).imp_right fun h => h.imp_right ?_⟩
  rintro ⟨c, ⟨⟩, -⟩

theorem act_spawns (call : Call) (h : call.movesBreak = false) : Keeps (Spawns t) (act t call) := by
  by_cases hcall : ∃ thread, call = .pthread_create thread
  · obtain ⟨thread, rfl⟩ := hcall
    cases t with
    | none => exact Keeps.stop
    | some c => exact do_pthread_create_spawns thread
  · exact (act_spawns_none call h fun thread e => hcall ⟨thread, e⟩).mono fun _ _ => Spawns.of_none

end OsLab.Mm
