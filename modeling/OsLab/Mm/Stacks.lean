import OsLab.Mm.Break
import OsLab.Mm.Placed

/-!
# The stacks of threads

`init_pthread_pcb` puts the stack of a new thread above the stack of the thread that creates it, by as many
pages as the id of the new thread says. So a stack lies above that of the main thread by the sum of the ids
from its thread back to the main thread, the `height` of the thread. The ids of a process may well be
different and the sums equal: two stacks are one page exactly if the heights agree modulo the number of pages
of the address space. A stack is also mapped where the process may already have a page of another kind; then the page
has two nodes (`stacks_apart_iff`).
-/

namespace OsLab.Mm

open Lib ProgM

/-! ### Pages -/

/-- The base of the stack of a thread `n` pages above the main thread. -/
def baseAt (n : ℤ) : UInt64 := USER_STACK_ADDR + UInt64.ofInt (4096 * n)

/-- The page that `setup_process_stack` and `setup_pthread_stack` map for a stack with this base. -/
def stackPage (user_stack_base : UInt64) : UInt64 := (user_stack_base - PAGE_SIZE) &&& VA_MASK

theorem baseAt_add (m n : ℤ) : baseAt m + UInt64.ofInt (4096 * n) = baseAt (m + n) := by
  rw [baseAt, baseAt, Int.mul_add, UInt64.ofInt_add, UInt64.add_assoc]

theorem toNat_stackPage (n : ℤ) : ((stackPage (baseAt n)).toNat : ℤ) = (0xf0000f000 + 4096 * n) % 2 ^ 39 := by
  have hbase : baseAt n - PAGE_SIZE = UInt64.ofInt (0xf0000f000 + 4096 * n) := by
    have h : USER_STACK_ADDR = UInt64.ofInt 0xf0000f000 + PAGE_SIZE := by decide
    rw [baseAt, UInt64.ofInt_add, h]
    grind
  have hmask : VA_MASK.toNat = 2 ^ 39 - 1 := rfl
  have hval : (UInt64.ofInt (0xf0000f000 + 4096 * n)).toNat = ((0xf0000f000 + 4096 * n) % 2 ^ 64).toNat := by
    rw [UInt64.ofInt, UInt64.toNat_ofNat']
    omega
  rw [stackPage, hbase, UInt64.toNat_and, hmask, Nat.and_two_pow_sub_one_eq_mod, hval]
  omega

/-- Two stacks are one page if the sums of ids agree modulo the pages of the address space. -/
theorem stackPage_inj (m n : ℤ) : stackPage (baseAt m) = stackPage (baseAt n) ↔ m % 2 ^ 27 = n % 2 ^ 27 := by
  have hm := toNat_stackPage m
  have hn := toNat_stackPage n
  constructor
  · intro h
    rw [h] at hm
    omega
  · intro h
    apply UInt64.toNat_inj.mp
    omega

/-! ### Families of threads -/

/-- A thread of a process, as it was created. -/
structure Thread where
  slot : Slot
  id : Int32
  /-- The sum of the ids from this thread back to the main thread, which counts 0. -/
  height : ℤ
  /-- The page of its user stack. -/
  page : UInt64
  /-- The variables before and after `do_pthread_create`; none for the main thread. -/
  made : Option (Memory × Memory)

/-- The height of the thread in slot `c`; the threads are listed with the newest first. -/
def heightOf (ts : List Thread) (c : Slot) : ℤ := ((ts.find? (·.slot = c)).map (·.height)).getD 0

/-- The thread that a task of process `P` creates by a step from `s` to `s'`. -/
def created (P : Int32) (ts : List Thread) (s s' : Memory) : Option Slot → Call → Option Thread
  | some c, .pthread_create thread =>
    if (s.pcb c).pid = P then
      (get_free_pcb s.pcb).map fun i =>
        ⟨i, thread, heightOf ts c + thread.toInt, stackPage (s'.pcb i).user_stack_base, some (s, s')⟩
    else none
  | _, _ => none

/-- When the call that has created the thread returns, the process has one node for the page of its stack. -/
def Thread.MappedOnce (P : Int32) (x : Thread) : Prop := ∀ r ∈ x.made, r.2.nodes P x.page = 1

instance (P : Int32) : DecidablePred (Thread.MappedOnce P) := fun x =>
  inferInstanceAs (Decidable (∀ r ∈ x.made, r.2.nodes P x.page = 1))

/-- When the thread is created, the process has no node for the page that its stack is to have. -/
def Thread.Unmapped (P : Int32) (x : Thread) : Prop := ∀ r ∈ x.made, r.1.nodes P (stackPage (baseAt x.height)) = 0

instance (P : Int32) : DecidablePred (Thread.Unmapped P) := fun x =>
  inferInstanceAs (Decidable (∀ r ∈ x.made, r.1.nodes P (stackPage (baseAt x.height)) = 0))

/-- The process `P` has one thread, in slot `i`, which `do_exec` has set up. -/
structure Main (P : Int32) (i : Slot) (s : Memory) : Prop where
  live : (s.pcb i).exited = false
  only : ∀ j, (s.pcb j).exited = false → (s.pcb j).pid = P → j = i
  base : (s.pcb i).user_stack_base = USER_STACK_ADDR
  pid : P ≤ s.process_id
  placed : Placed s

/-- Runs of the system from a state where `P` has its main thread only, with the threads of `P` created so
far, the main thread last. -/
inductive FamilyRun {σ : Type} (h : Handler Op Op.Res σ) (P : Int32) : List Thread → Conf Memory σ → Prop where
  /-- The main thread. -/
  | main {z : Conf Memory σ} {i : Slot} (hm : Main P i z.mem) :
      FamilyRun h P [⟨i, 0, 0, stackPage (z.mem.pcb i).user_stack_base, none⟩] z
  /-- A step of any task. -/
  | step {ts : List Thread} {z z' : Conf Memory σ} {t : Option Slot}
      {call : Call} (hr : FamilyRun h P ts z) (ht : z.mem.live t)
      (he : exec h (act t call) z = some ((), z')) : FamilyRun h P ((created P ts z.mem z'.mem t call).toList ++ ts) z'

variable {s s' : Memory} {c i j : Slot} {t : Option Slot} {P : Int32}
    {ts : List Thread} {σ : Type} {h : Handler Op Op.Res σ}
  {z : Conf Memory σ}

/-! ### Creating a thread -/

/-- A new thread `j` of the running task `c`. -/
structure Created (thread : Int32) (c j : Slot) (s s' : Memory) : Prop where
  others : ∀ k, k ≠ j → s'.pcb k = s.pcb k
  pid : (s'.pcb j).pid = (s.pcb c).pid
  base : (s'.pcb j).user_stack_base = (s.pcb c).user_stack_base + UInt64.ofInt (4096 * thread.toInt)
  process_id : s'.process_id = s.process_id

theorem init_pthread_pcb_created (thread : Int32) :
    Partial s (init_pthread_pcb i thread c) fun _ s' => Created thread c i s s' := by
  refine Partial.get_bind (Partial.modify_bind ?_)
  refine Partial.bind (alloc_kernel_page_quiet _) fun kva s₁ q₁ => ?_
  refine Partial.bind (create_PageNode_quiet _ _ _ _) fun _ s₂ q₂ => Partial.assert_bind fun _ => Partial.modify ?_
  have q := IsTrans.trans (r := Quiet) _ _ _ q₁ q₂
  have hp := q.pcb
  refine ⟨fun j hj => ?_, ?_, ?_, q.process_id⟩
  · simp [hp, Function.update_of_ne hj]
  · simp [hp]
  · simp

theorem init_pthread_pcb_nodes (thread : Int32) : Keeps SameNodes (init_pthread_pcb i thread c) := by
  have hpcb : ∀ f : Pcb → Pcb, Keeps SameNodes (setPcb i f) := fun f => Keeps.modify fun _ _ _ => rfl
  exact Keeps.read fun _ => (hpcb _).bind fun _ => alloc_kernel_page_nodes.bind fun _ =>
    create_PageNode_kernel_nodes.bind fun _ => assert_keeps.bind fun _ => hpcb _

theorem setup_pthread_stack_nodes (hs : Placed s) : Partial s (setup_pthread_stack j c) fun _ s' => ∀ uva,
    s'.nodes (s.pcb j).pid uva = s.nodes (s.pcb j).pid uva + if stackPage (s.pcb j).user_stack_base =
    uva then 1 else 0 := by
  refine Partial.get_bind (Partial.bind (alloc_page_helper_nodes hs) fun _ s' hn => Partial.pure fun uva => ?_)
  rw [hn (s.pcb j).pid uva]
  exact congrArg _ (if_congr (and_iff_right rfl) rfl rfl)

/-- `setup_pthread_stack` adds one node to those of the process, for the page of the stack. -/
theorem do_pthread_create_created (thread : Int32) (hs : Placed s) : Partial s (do_pthread_create thread c) fun _ s' =>
    (get_free_pcb s.pcb = none ∧ s' = s) ∨ ∃ j, get_free_pcb s.pcb = some j ∧ Created thread c j s s' ∧ ∀ uva,
      s'.nodes (s.pcb c).pid uva = s.nodes (s.pcb c).pid uva + if stackPage (s'.pcb j).user_stack_base =
      uva then 1 else 0 := by
  refine Partial.get_bind ?_
  split
  · next hfree => exact Partial.pure (Or.inl ⟨hfree, rfl⟩)
  · next j hfree =>
    have hinit := ((init_pthread_pcb_created (i := j) (c := c) thread).and (init_pthread_pcb_placed j thread s)).and
      (init_pthread_pcb_nodes thread s)
    refine Partial.bind hinit fun _ s₁ ⟨⟨h₁, p₁⟩, n₁⟩ => Partial.modify_bind ?_
    generalize hs₂ : s₁.putPcb j (fun p => { p with pgdir := (s.pcb c).pgdir }) = s₂
    have h₂ : Created thread c j s s₂ := by
      subst hs₂
      refine ⟨fun k hk => ?_, ?_, ?_, h₁.process_id⟩
      · simp [Function.update_of_ne hk, h₁.others k hk]
      · simp [h₁.pid]
      · simp [h₁.base]
    have p₂ : Placed s₂ := by
      subst hs₂
      exact (p₁ hs).of_subset (List.Subset.refl _) rfl
    have n₂ : SameNodes s s₂ := by
      subst hs₂
      exact n₁
    have hquiet : Keeps Quiet (setup_pthread_stack j c) :=
      Keeps.read fun _ => (alloc_page_helper_quiet _ _).bind fun _ => Keeps.pure _
    refine Partial.bind ((hquiet s₂).and (setup_pthread_stack_nodes p₂)) fun _ s₃ ⟨q, n₃⟩ =>
      Partial.modify (Or.inr ⟨j, hfree, ?_, fun uva => ?_⟩)
    · have hpcb := q.pcb
      refine ⟨fun k hk => ?_, ?_, ?_, q.process_id.trans h₂.process_id⟩
      · simp [hpcb, Function.update_of_ne hk, h₂.others k hk]
      · simp [hpcb, h₂.pid]
      · simp [hpcb, h₂.base]
    · rw [← n₂, ← h₂.pid]
      refine (n₃ uva).trans ?_
      simp [q.pcb]

/-! ### Heights -/

theorem heightOf_cons_self {x : Thread} (he : x.slot = c) (ts : List Thread) : heightOf (x :: ts) c = x.height := by
  simp [heightOf, he]

theorem heightOf_cons_of_ne {x : Thread} (hne : x.slot ≠ c) (ts : List Thread) :
    heightOf (x :: ts) c = heightOf ts c := by
  rw [heightOf, List.find?_cons_of_neg (by simpa using hne), heightOf]

/-- The heights say where the stacks are, and each creation has added a node for its stack. -/
structure Family (P : Int32) (ts : List Thread) (s : Memory) : Prop where
  page : ∀ x ∈ ts, x.page = stackPage (baseAt x.height)
  made : ∀ x ∈ ts, ∀ r ∈ x.made, r.2.nodes P x.page = r.1.nodes P x.page + 1
  base : ∀ j, (s.pcb j).exited = false → (s.pcb j).pid = P → (s.pcb j).user_stack_base = baseAt (heightOf ts j)
  pid : P ≤ s.process_id

theorem Main.family (hm : Main P i s) : Family P [⟨i, 0, 0, stackPage (s.pcb i).user_stack_base, none⟩] s := by
  have hzero : baseAt 0 = USER_STACK_ADDR := by decide
  refine ⟨fun x hx => ?_, fun x hx r hmade => ?_, fun j hj hp => ?_, hm.pid⟩
  · obtain rfl := List.mem_singleton.mp hx
    rw [hm.base, hzero]
  · obtain rfl := List.mem_singleton.mp hx
    cases hmade
  · obtain rfl := hm.only j hj hp
    rw [hm.base, ← hzero, heightOf_cons_self rfl]

/-- A step that creates no thread. -/
theorem Family.spawns (hf : Family P ts s) (hs : Spawns none s s') : Family P ts s' := by
  refine ⟨hf.page, hf.made, fun j hj hp => ?_, Int32.le_trans hf.pid hs.process_id⟩
  rcases hs.task j hj with ⟨hlive, he⟩ | ⟨hlt, -⟩ | ⟨c, hc, -⟩
  · rw [he] at hp ⊢
    exact hf.base j hlive hp
  · rw [hp] at hlt
    exact absurd (Int32.lt_of_lt_of_le hlt hf.pid) Int32.lt_irrefl
  · cases hc

/-- A thread of `P` creates a thread. -/
theorem Family.created (hf : Family P ts s) (hc : (s.pcb c).exited = false) (hp : (s.pcb c).pid = P) {thread : Int32}
    (hnew : Created thread c j s s')
    (hn : ∀ uva, s'.nodes P uva = s.nodes P uva +
      if stackPage (s'.pcb j).user_stack_base = uva then 1 else 0) :
    Family P (⟨j, thread, heightOf ts c + thread.toInt,
      stackPage (s'.pcb j).user_stack_base, some (s, s')⟩ :: ts) s' := by
  have hbase : (s'.pcb j).user_stack_base = baseAt (heightOf ts c + thread.toInt) := by
    rw [hnew.base, hf.base c hc hp, baseAt_add]
  refine ⟨fun x hx => ?_, fun x hx r hmade => ?_, fun k hk hpk => ?_, by rw [hnew.process_id]; exact hf.pid⟩
  · rcases List.mem_cons.mp hx with rfl | hx
    · exact congrArg stackPage hbase
    · exact hf.page x hx
  · rcases List.mem_cons.mp hx with rfl | hx
    · obtain rfl := Option.some.inj hmade
      simpa using hn (stackPage (s'.pcb j).user_stack_base)
    · exact hf.made x hx r hmade
  · by_cases hkj : k = j
    · subst hkj
      rw [heightOf_cons_self rfl]
      exact hbase
    · rw [hnew.others k hkj] at hk hpk ⊢
      rw [heightOf_cons_of_ne (Ne.symm hkj)]
      exact hf.base k hk hpk

/-- A thread of another process creates a thread. -/
theorem Family.other (hf : Family P ts s) (hp : (s.pcb c).pid ≠ P)
    {thread : Int32} (hnew : Created thread c j s s') : Family P ts s' := by
  refine ⟨hf.page, hf.made, fun k hk hpk => ?_, by rw [hnew.process_id]; exact hf.pid⟩
  have hkj : k ≠ j := by
    rintro rfl
    exact hp (hnew.pid.symm.trans hpk)
  rw [hnew.others k hkj] at hk hpk ⊢
  exact hf.base k hk hpk

theorem Family.breaks (hf : Family P ts s) {f : Pcb → Pcb}
    (h1 : ∀ p, (f p).exited = p.exited) (h2 : ∀ p, (f p).pid = p.pid)
    (h3 : ∀ p, (f p).user_stack_base = p.user_stack_base) : Family P ts (s.putPcb c f) := by
  refine ⟨hf.page, hf.made, fun k hk hpk => ?_, hf.pid⟩
  by_cases hkc : k = c
  · subst hkc
    simp only [Memory.putPcb_pcb, Function.update_self, h1, h2, h3] at hk hpk ⊢
    exact hf.base k hk hpk
  · simp only [Memory.putPcb_pcb, Function.update_of_ne hkc] at hk hpk ⊢
    exact hf.base k hk hpk

theorem Family.step (hf : Family P ts s) (hs : Placed s) (ht : s.live t) (call : Call) :
    Partial s (act t call) fun _ s' => Family P ((Mm.created P ts s s' t call).toList ++ ts) s' := by
  by_cases hcall : ∃ thread, call = .pthread_create thread
  · obtain ⟨thread, rfl⟩ := hcall
    cases t with
    | none => exact Partial.stop
    | some c =>
      refine (do_pthread_create_created thread hs).mono fun _ s' hs' => ?_
      rcases hs' with ⟨hfree, rfl⟩ | ⟨j, hfree, hnew, hn⟩
      · simpa [Mm.created, hfree] using hf
      · by_cases hp : (s.pcb c).pid = P
        · simpa [Mm.created, hfree, hp] using hf.created ht hp hnew (hp ▸ hn)
        · simpa [Mm.created, hp] using hf.other hp hnew
  · have hnone : ∀ s', Mm.created P ts s s' t call = none := by
      intro s'
      unfold Mm.created
      split
      · exact absurd ⟨_, rfl⟩ hcall
      · rfl
    simp only [hnone, Option.toList_none, List.nil_append]
    by_cases hmove : call.movesBreak = true
    · cases t with
      | none =>
        cases call with
        | exec => cases hmove
        | _ => exact Partial.stop
      | some c =>
        cases call with
        | getbrk e => exact Partial.modify (hf.breaks (fun _ => rfl) (fun _ => rfl) fun _ => rfl)
        | brk addr =>
          refine (act_brk addr).mono fun _ s' hs' => ?_
          rcases hs' with rfl | rfl
          · exact hf.breaks (fun _ => rfl) (fun _ => rfl) fun _ => rfl
          · exact hf
        | sbrk n =>
          refine Partial.bind (q := fun _ s' => Family P ts s')
            (Partial.get_bind (Partial.ite (fun _ => ?_) fun _ => Partial.pure hf))
            fun _ _ hf' => Partial.pure hf'
          have hf' := hf.breaks (c := c) (f := fun p => { p with brk := p.brk + ROUND n })
            (fun _ => rfl) (fun _ => rfl) fun _ => rfl
          exact Partial.modify_bind (Partial.modify_bind (Partial.pure ⟨hf'.page, hf'.made, hf'.base, hf'.pid⟩))
        | _ => cases hmove
    · refine (act_spawns_none call (by simpa using hmove) (fun thread e => hcall ⟨thread, e⟩) s).mono fun _ s' hs =>
        hf.spawns hs

theorem FamilyRun.placed (hr : FamilyRun h P ts z) : Placed z.mem := by
  induction hr with
  | main hm => exact hm.placed
  | step hr ht he ih => exact act_placed _ _ _ _ _ _ _ he ih

theorem FamilyRun.family (hr : FamilyRun h P ts z) : Family P ts z.mem := by
  induction hr with
  | main hm => exact hm.family
  | step hr ht he ih => exact ih.step hr.placed ht _ _ _ _ _ _ he

/-- The stacks are different pages exactly if the sums of ids are different modulo the pages of the address space. -/
theorem Family.nodup_iff (hf : Family P ts s) : (ts.map (·.page)).Nodup ↔ (ts.map (·.height % 2 ^ 27)).Nodup := by
  simp only [List.Nodup, List.pairwise_map]
  refine List.Pairwise.iff_of_mem fun {x y} hx hy => not_congr ?_
  rw [hf.page x hx, hf.page y hy]
  exact stackPage_inj x.height y.height

/-- The creation maps a page that is not mapped exactly if the process had no node for it. -/
theorem Family.mappedOnce_iff (hf : Family P ts s) {x : Thread} (hx : x ∈ ts) : x.MappedOnce P ↔ x.Unmapped P := by
  refine forall₂_congr fun r hmade => ?_
  rw [hf.made x hx r hmade, ← hf.page x hx]
  omega

/-- **Separate stacks**: the stacks of the main thread and of all threads created in a run are different pages, and no
creation has mapped a page that the process had mapped, exactly if the sums of ids are different modulo the
`2^27` pages of the address space and the process had no node for the page of a stack before its
creation. -/
theorem stacks_apart_iff (hr : FamilyRun h P ts z) : ((ts.map (·.page)).Nodup ∧ ∀ x ∈ ts, x.MappedOnce P) ↔
    ((ts.map (·.height % 2 ^ 27)).Nodup ∧ ∀ x ∈ ts, x.Unmapped P) :=
  and_congr hr.family.nodup_iff (forall₂_congr fun _ hx => hr.family.mappedOnce_iff hx)

/-! ### Two runs -/

/-- The run in which tasks create threads with the given ids, if they can all do so. -/
def familySteps (h : Handler Op Op.Res σ) (P : Int32) : List (Slot × Int32) →
    List Thread → Conf Memory σ → Option (List Thread × Conf Memory σ)
  | [], ts, z => some (ts, z)
  | (c, thread) :: l, ts, z =>
    if (z.mem.pcb c).exited = false then
      (exec h (act (some c) (.pthread_create thread)) z).bind fun r =>
        familySteps h P l ((created P ts z.mem r.2.mem (some c) (.pthread_create thread)).toList ++ ts) r.2
    else none

theorem FamilyRun.steps (hr : FamilyRun h P ts z) {l : List (Slot × Int32)} {r : List Thread × Conf Memory σ}
    (he : familySteps h P l ts z = some r) : FamilyRun h P r.1 r.2 := by
  induction l generalizing ts z with
  | nil =>
    obtain rfl := Option.some.inj he
    exact hr
  | cons x l ih =>
    obtain ⟨c, thread⟩ := x
    rw [familySteps, Option.ite_none_right_eq_some, Option.bind_eq_some_iff] at he
    obtain ⟨hlive, ⟨⟨⟩, z'⟩, hex, hl⟩ := he
    exact ih (hr.step (t := some c) hlive hex) hl

/-- The main thread of `oneProcess`. -/
def mainThread : Thread := ⟨0, 0, 0, stackPage (oneProcess.pcb 0).user_stack_base, none⟩

theorem familyRun_oneProcess : FamilyRun idleCard 1 [mainThread] ⟨oneProcess, ()⟩ := by
  refine FamilyRun.main (z := ⟨oneProcess, ()⟩) (i := 0)
    ⟨rfl, fun j hj _ => ?_, rfl, by decide, fun p hp => ?_, fun j hj => ?_⟩
  · simpa [oneProcess] using hj
  · cases hp
  · cases hj

/-- The main thread creates thread 1, and thread 1 creates thread 2. -/
theorem stacks_apart_two : ∃ (ts : List Thread) (z : Conf Memory Unit),
    FamilyRun idleCard 1 ts z ∧ ts.map (·.id) = [2, 1, 0] ∧
    ts.map (·.height) = [3, 1, 0] ∧ (ts.map (·.page)).Nodup ∧ ∀ x ∈ ts, x.MappedOnce 1 := by
  have hrun : (familySteps idleCard 1 [(0, 1), (1, 2)] [mainThread] ⟨oneProcess, ()⟩).map (fun r => decide
      (r.1.map (·.id) = [2, 1, 0] ∧ r.1.map (·.height) = [3, 1, 0] ∧ ∀ x ∈ r.1, x.Unmapped 1)) =
      some true := by decide +kernel
  obtain ⟨⟨ts, z⟩, he, hs⟩ := Option.map_eq_some_iff.mp hrun
  obtain ⟨hid, hheight, hfree⟩ := of_decide_eq_true hs
  have hr := familyRun_oneProcess.steps he
  refine ⟨ts, z, hr, hid, hheight, (stacks_apart_iff hr).mpr ⟨?_, hfree⟩⟩
  have hmod : ts.map (·.height % 2 ^ 27) = (ts.map (·.height)).map (· % 2 ^ 27) := by rw [List.map_map]; rfl
  have hheight : ts.map (·.height) = [3, 1, 0] := hheight
  rw [hmod, hheight]
  decide

/-- The main thread creates thread 1, thread 1 creates thread 2, and the main thread creates thread 3: the
stacks of threads 2 and 3 are one page, for which the process then has two nodes. -/
theorem stacks_meet : ∃ (ts : List Thread) (z : Conf Memory Unit),
    FamilyRun idleCard 1 ts z ∧ ts.map (·.id) = [3, 2, 1, 0] ∧
    ¬ (ts.map (·.page)).Nodup ∧ ¬ ∀ x ∈ ts, x.MappedOnce 1 := by
  have hrun : (familySteps idleCard 1 [(0, 1), (1, 2), (0, 3)] [mainThread] ⟨oneProcess, ()⟩).map (fun r => decide
      (r.1.map (·.id) = [3, 2, 1, 0] ∧ ¬ (r.1.map (·.page)).Nodup ∧ ¬ ∀ x ∈ r.1, x.MappedOnce 1)) =
      some true := by decide +kernel
  obtain ⟨⟨ts, z⟩, he, hs⟩ := Option.map_eq_some_iff.mp hrun
  obtain ⟨hid, hpage, hnode⟩ := of_decide_eq_true hs
  exact ⟨ts, z, familyRun_oneProcess.steps he, hid, hpage, hnode⟩

end OsLab.Mm
