import OsLab.Sched.Runs

/-!
# Queues that a step leaves alone

The tasks that meet at a barrier or wait on a condition are moved by the few calls on that barrier or
condition, and by nothing else that the kernel does: a task is taken out of a queue only by code that
has found it in that queue. `Spares q x` says that the program `x` leaves the queue `q` as it is; it
is about the lists, and asks of them only that no task is in two queues. The one exception is
`do_kill`, which takes its tasks out of whatever queue they are in.
-/

namespace OsLab.Sched

open Lib ProgM

variable {α β : Type} {c : St} {h : Hart} {i j : Slot} {o : Option Slot} {q q' : Queue} {k : Handle}

/-- No task is in two queues. -/
def Queues.Apart (Q : Queues) : Prop := ∀ i q q', i ∈ Q q → i ∈ Q q' → q = q'

theorem Disc.apart {st : Slot → TaskStatus} {Q : Queues} {cur : Hart → Option Slot} (hd : Disc st Q cur) : Q.Apart :=
  fun _ _ _ hp hp' => hd.disjoint hp hp'

/-- What steps for the task `o` that have nothing to do with the queue `q` leave alone: the barrier of
the queue, if it is active, and where the other tasks go on. -/
structure Calm (q : Queue) (o : Option Slot) (m m' : Kernel) : Prop where
  barrier : ∀ k, q = .barrier k → (m.barrier k).active = true → m'.barrier k = m.barrier k
  resume : ∀ i, o ≠ some i → m.status i ≠ .TASK_EXITED → m'.resume i = m.resume i
  alive : ∀ i, o ≠ some i → m.status i ≠ .TASK_EXITED → m'.status i ≠ .TASK_EXITED

instance : Std.Refl (Calm q o) := ⟨fun _ => ⟨fun _ _ _ => rfl, fun _ _ _ => rfl, fun _ _ hi => hi⟩⟩

instance : IsTrans Kernel (Calm q o) := ⟨fun m₁ m₂ m₃ n₁ n₂ => by
  refine ⟨fun k hk hact => ?_, fun i hi hs => ?_, fun i hi hs => n₂.alive i hi (n₁.alive i hi hs)⟩
  · have h₁ := n₁.barrier k hk hact
    exact (n₂.barrier k hk (by rw [h₁]; exact hact)).trans h₁
  · exact (n₂.resume i hi (n₁.alive i hi hs)).trans (n₁.resume i hi hs)⟩

/-- From `c`, `x` leaves the queue `q` alone. -/
def SparesAt (q : Queue) (o : Option Slot) (c : St) (x : SchedM α) : Prop :=
  c.dev.Apart → Ensures listed c x fun _ c' => c'.dev.Apart ∧ c'.dev q = c.dev q ∧ Calm q o c.mem c'.mem

/-- `x` leaves the queue `q` alone. -/
def Spares (q : Queue) (o : Option Slot) (x : SchedM α) : Prop := ∀ c, SparesAt q o c x

namespace SparesAt

theorem bind {x : SchedM α} {f : α → SchedM β} {p : α → St → Prop} (hx : SparesAt q o c x) (hp : Ensures listed c x p)
    (hf : ∀ a c', p a c' → SparesAt q o c' (f a)) : SparesAt q o c (x >>= f) := by
  intro ha
  refine ((hx ha).and hp).bind ?_
  rintro a c' ⟨⟨ha', hq', hm'⟩, hp'⟩
  refine (hf a c' hp' ha').mono ?_
  rintro _ c'' ⟨ha'', hq'', hm''⟩
  exact ⟨ha'', hq''.trans hq', IsTrans.trans _ _ _ hm' hm''⟩

theorem get_bind {f : Kernel → SchedM β} (hf : SparesAt q o c (f c.mem)) : SparesAt q o c (get >>= f) :=
  fun ha => Ensures.get_bind (hf ha)

theorem modify {g : Kernel → Kernel} (hg : Calm q o c.mem (g c.mem)) : SparesAt q o c (modify g : SchedM PUnit) :=
  fun ha => Ensures.modify ⟨ha, rfl, hg⟩

end SparesAt

namespace Spares

variable {x y : SchedM α} {f : α → SchedM β}

theorem pure (a : α) : Spares q o (pure a : SchedM α) := fun _ ha => Ensures.pure ⟨ha, rfl, Std.Refl.refl _⟩

theorem stop : Spares q o (stop : SchedM α) := fun _ _ => Ensures.stop

theorem bind (hx : Spares q o x) (hf : ∀ a, Spares q o (f a)) : Spares q o (x >>= f) :=
  fun c => (hx c).bind (p := fun _ _ => True) (fun _ _ _ => trivial) fun a c' _ => hf a c'

theorem read {f : Kernel → SchedM β} (hf : ∀ s, Spares q o (f s)) :
    Spares q o (get >>= f) := fun c => SparesAt.get_bind (hf c.mem c)

theorem modify {g : Kernel → Kernel} (hg : ∀ m, Calm q o m (g m)) : Spares q o (modify g : SchedM PUnit) :=
  fun c => SparesAt.modify (hg c.mem)

theorem ite {p : Prop} [Decidable p] (hx : Spares q o x) (hy : Spares q o y) : Spares q o (if p then x else y) := by
  split
  · exact hx
  · exact hy

theorem ifThen {p : Prop} [Decidable p] {x : SchedM Unit} (hx : Spares q o x) :
    Spares q o (ifThen p x) := ite hx (pure _)

end Spares

/-! ### Variables -/

/-- Variables change that are none of the above. -/
theorem Calm.of_eq {m m' : Kernel} (hb : m'.barrier = m.barrier) (hr : m'.resume = m.resume)
    (hs : ∀ i, m'.status i = .TASK_EXITED → m.status i = .TASK_EXITED) : Calm q o m m' :=
  ⟨fun k _ _ => by rw [hb], fun i _ _ => by rw [hr], fun i _ hi e => hi (hs i e)⟩

theorem setPcb_spares {f : Pcb → Pcb} (hs : ∀ p, (f p).status = .TASK_EXITED → p.status = .TASK_EXITED) :
    Spares q o (setPcb i f) := by
  refine Spares.modify fun m => .of_eq rfl rfl fun j => ?_
  by_cases hj : j = i
  · subst hj
    simpa [Kernel.status] using hs _
  · simp [Kernel.status, hj]

/-- A slot gets new fields, but not a new status. -/
theorem setPcb_status {f : Pcb → Pcb} (hs : ∀ p, (f p).status = p.status) :
    Ensures listed c (setPcb i f) fun _ c' => c'.mem.status = c.mem.status := by
  refine Ensures.modify (funext fun j => ?_)
  by_cases hj : j = i
  · subst hj
    simp [Kernel.status, hs]
  · simp [Kernel.status, hj]

theorem setStatus_spares {st : TaskStatus} (hs : st ≠ .TASK_EXITED) : Spares q o (setStatus i st) :=
  setPcb_spares fun _ e => absurd e hs

/-- The task of the call ends. -/
theorem setExited_spares : Spares q (some i) (setStatus i .TASK_EXITED) := by
  refine Spares.modify fun m => ⟨fun _ _ _ => rfl, fun _ _ _ => rfl, fun j hj hs => ?_⟩
  have hji : j ≠ i := by
    rintro rfl
    exact hj rfl
  simpa [Kernel.status, hji] using hs

/-- The task of the call, or one that has ended, notes where it will go on. -/
theorem setResume_spares (r : Resume) (hi : o = some i ∨ c.mem.status i = .TASK_EXITED) :
    SparesAt q o c (setResume i r) := by
  refine SparesAt.modify ⟨fun _ _ _ => rfl, fun j hj hs => Function.update_of_ne ?_ .., fun _ _ hs => hs⟩
  rintro rfl
  exact hi.elim hj hs

theorem finish_spares (v : ℤ) : Spares q (some i) (finish i v) := by
  refine Spares.modify fun m => ⟨fun _ _ _ => rfl, fun j hj _ => Function.update_of_ne ?_ .., fun _ _ hs => hs⟩
  rintro rfl
  exact hj rfl

theorem setBarrier_spares (hq : q ≠ .barrier k) (b : Barrier) : Spares q o (setBarrier k b) := by
  refine Spares.modify fun m => ⟨fun k' hk' _ => Function.update_of_ne ?_ .., fun _ _ _ => rfl, fun _ _ hs => hs⟩
  rintro rfl
  exact hq hk'

theorem setCurrent_spares (r : Option Slot) : Spares q o (setCurrent h r) :=
  Spares.modify fun _ => .of_eq rfl rfl fun _ e => e

theorem setMlock_spares (b : MutexLock) : Spares q o (setMlock k b) :=
  Spares.modify fun _ => .of_eq rfl rfl fun _ e => e

theorem setCondition_spares (b : Condition) : Spares q o (setCondition k b) :=
  Spares.modify fun _ => .of_eq rfl rfl fun _ e => e

theorem setMailbox_spares (b : Mailbox) : Spares q o (setMailbox k b) :=
  Spares.modify fun _ => .of_eq rfl rfl fun _ e => e

theorem record_spares (e : Event) : Spares q o (record e) := Spares.modify fun _ => .of_eq rfl rfl fun _ e => e

theorem get_timer_spares : Spares q o get_timer := by
  refine Spares.read fun s => Spares.bind (Spares.modify fun m => ?_) fun _ => Spares.pure _
  exact .of_eq rfl rfl fun _ e => e

/-! ### Queues -/

/-- An operation that moves no task. -/
theorem perform_spares {e : Op} (he : ∀ (Q : Queues) r Q', listed e Q = some (r, Q') → Q'.tasks = Q.tasks) :
    Spares q o (perform e : SchedM e.Res) := by
  refine fun c ha => Ensures.perform fun r d hd => ?_
  have htasks := he c.dev r d hd
  refine ⟨?_, congrFun htasks q, Std.Refl.refl _⟩
  rw [Queues.Apart, htasks]
  exact ha

theorem nextNode_spares (n : Node) : Spares q o (nextNode q' n) := by
  refine perform_spares fun Q r d he => ?_
  simp only [listed, Option.ite_none_right_eq_some, Option.map_eq_some_iff] at he
  obtain ⟨-, m, -, he⟩ := he
  rw [(Prod.mk.inj he).2]

theorem initQueue_spares : Spares q o (initQueue q') := by
  refine perform_spares fun Q r d he => ?_
  simp only [listed, Option.ite_none_right_eq_some, Option.some.injEq, Prod.mk.injEq] at he
  rw [← he.2.2]

theorem processPages_spares (pid : Int32) (task : ℕ) : Spares q o (processPages i pid task) :=
  perform_spares fun _ _ _ he => by rw [(Prod.mk.inj (Option.some.inj he)).2]

theorem threadPages_spares (pid thread : Int32) : Spares q o (threadPages i pid thread) :=
  perform_spares fun _ _ _ he => by rw [(Prod.mk.inj (Option.some.inj he)).2]

theorem releasePages_spares : Spares q o (releasePages i) :=
  Spares.read fun _ => Spares.ifThen (perform_spares fun _ _ _ he => by rw [(Prod.mk.inj (Option.some.inj he)).2])

theorem enqueue_spares (hq : q' ≠ q) : Spares q o (enqueue i q') := by
  refine fun c ha => Ensures.perform fun r d he => ?_
  simp only [listed, Option.ite_none_right_eq_some, Option.some.injEq, Prod.mk.injEq] at he
  obtain ⟨⟨hfree, -⟩, -, rfl⟩ := he
  -- the new task was in no queue, so it is now in one
  have hmem : ∀ j p, j ∈ Function.update c.dev.tasks q' (c.dev q' ++ [i]) p → j ∈ c.dev p ∨ (j = i ∧ p = q') := by
    intro j p hj
    by_cases hp : p = q'
    · subst hp
      rw [Function.update_self, List.mem_append, List.mem_singleton] at hj
      exact hj.imp_right fun e => ⟨e, rfl⟩
    · rw [Function.update_of_ne hp] at hj
      exact Or.inl hj
  refine ⟨fun j p p' hp hp' => ?_, Function.update_of_ne hq.symm .., Std.Refl.refl _⟩
  rcases hmem j p hp with h1 | ⟨rfl, rfl⟩ <;> rcases hmem j p' hp' with h2 | ⟨e, rfl⟩
  · exact ha j p p' h1 h2
  · exact absurd h1 (e ▸ hfree p)
  · exact absurd h2 (hfree p')
  · rfl

/-- A task is taken out of the queue `q'` that it is in. -/
theorem unlink_spares (hq : q' ≠ q) (hi : i ∈ c.dev q') : SparesAt q o c (unlink i) := by
  refine fun ha => Ensures.perform fun r d he => ?_
  simp only [listed, Option.ite_none_left_eq_some, Option.some.injEq, Prod.mk.injEq] at he
  obtain ⟨-, -, rfl⟩ := he
  refine ⟨fun j p p' hp hp' => ha j p p' (List.mem_of_mem_erase hp) (List.mem_of_mem_erase hp'), ?_, Std.Refl.refl _⟩
  exact List.erase_of_not_mem fun hi' => hq (ha i q' q hi hi')

theorem add_readyqueue_spares (hq : q ≠ .ready_queue) : Spares q o (add_readyqueue i) :=
  (setStatus_spares (by decide)).bind fun _ => enqueue_spares hq.symm

theorem do_block_spares (hq : q' ≠ q) : Spares q o (do_block i q') :=
  (enqueue_spares hq).bind fun _ => setStatus_spares (by decide)

theorem do_unblock_spares (hr : q ≠ .ready_queue) (hq : q' ≠ q) (hi : i ∈ c.dev q') : SparesAt q o c (do_unblock i) :=
  (unlink_spares hq hi).bind (p := fun _ _ => True) (fun _ _ _ => trivial) fun _ c' _ => add_readyqueue_spares hr c'

/-- A node of a queue is followed by one of its tasks or by its head. -/
theorem follower_mem {l : List Slot} {n : Node} (hf : follower q l n = some (.task i)) : i ∈ l := by
  have hfirst : ∀ l', first q l' = .task i → i ∈ l' := by
    intro l' he
    cases l' with
    | nil => cases he
    | cons j l' =>
      injection he with he
      exact he ▸ List.mem_cons_self ..
  cases n with
  | head p =>
    simp only [follower, Option.ite_none_right_eq_some, Option.some.injEq] at hf
    exact hfirst l hf.2
  | task j =>
    simp only [follower, Option.ite_none_right_eq_some, Option.some.injEq] at hf
    have := hfirst _ hf.2
    exact (List.dropWhile_sublist _).subset (List.mem_of_mem_tail this)

theorem nextNode_mem (n : Node) : Ensures listed c (nextNode q n) fun m c' =>
    c' = c ∧ (∀ i, m = .task i → i ∈ c.dev q) ∧ ∀ i, n = .task i → i ∈ c.dev q := by
  refine Ensures.perform fun r d he => ?_
  simp only [listed, Option.ite_none_right_eq_some, Option.map_eq_some_iff] at he
  obtain ⟨-, m, hf, he⟩ := he
  obtain ⟨rfl, rfl⟩ := Prod.mk.inj he
  refine ⟨rfl, ?_, ?_⟩
  · rintro i rfl
    exact follower_mem hf
  · rintro i rfl
    simp only [follower, Option.ite_none_right_eq_some] at hf
    exact hf.1

theorem wakeLoop_spares (hr : q ≠ .ready_queue) (hq : q' ≠ q) (fuel : ℕ) : Spares q o (wakeLoop q' fuel) := by
  induction fuel with
  | zero => exact Spares.stop
  | succ fuel ih =>
    intro c
    rw [wakeLoop]
    refine (nextNode_spares _ c).bind (nextNode_mem _) ?_
    rintro n _ ⟨rfl, hn, -⟩
    cases n with
    | task i =>
      exact (do_unblock_spares hr hq (hn i rfl)).bind (p := fun _ _ => True) (fun _ _ _ => trivial) fun _ c' _ => ih c'
    | head p => exact Spares.ite (Spares.pure _) Spares.stop _

theorem wakeAll_spares (hr : q ≠ .ready_queue) (hq : q' ≠ q) : Spares q o (wakeAll q') := wakeLoop_spares hr hq _

theorem checkLoop_spares (hr : q ≠ .ready_queue) (hq : q ≠ .sleep_queue) (fuel : ℕ) (n : Node) :
    Spares q o (checkLoop fuel n) := by
  induction fuel generalizing n with
  | zero => exact Spares.stop
  | succ fuel ih =>
    cases n with
    | task i =>
      intro c
      rw [checkLoop]
      refine (nextNode_spares _ c).bind (nextNode_mem _) ?_
      rintro n c₀ ⟨rfl, -, hi⟩
      refine SparesAt.get_bind ((get_timer_spares _).bind (p := fun _ c' => c'.dev = c₀.dev) ?_ ?_)
      · exact Ensures.get_bind (Ensures.modify_bind (Ensures.pure rfl))
      intro now c₁ hdev
      refine SparesAt.bind (p := fun _ _ => True) ?_ (fun _ _ _ => trivial) fun _ c' _ => ih n c'
      rw [Sched.ifThen]
      split
      · exact do_unblock_spares hr hq.symm (hdev.symm ▸ hi i rfl)
      · exact Spares.pure _ _
    | head p => exact Spares.ite (Spares.pure _) Spares.stop

theorem pickLoop_spares (hr : q ≠ .ready_queue) (fuel : ℕ) (n : Node) (hn : ∀ i, n = .task i → i ∈ c.dev .ready_queue) :
    SparesAt q o c (pickLoop h fuel n) := by
  induction fuel generalizing n with
  | zero => exact Spares.stop _
  | succ fuel ih =>
    cases n with
    | task i =>
      rw [pickLoop]
      refine SparesAt.get_bind ?_
      split
      · refine (setCurrent_spares _ c).bind (p := fun _ c' => c'.dev = c.dev) (Ensures.modify rfl) fun _ c₁ hdev => ?_
        refine (unlink_spares (hr.symm : Queue.ready_queue ≠ q) (hdev.symm ▸ hn i rfl)).bind (p := fun _ _ => True)
          (fun _ _ _ => trivial) fun _ c₂ _ => ?_
        refine Spares.bind (setPcb_spares fun p => ?_) (fun _ => Spares.pure _) c₂
        rintro ⟨⟩
      · refine (nextNode_spares _ c).bind (nextNode_mem _) ?_
        rintro m _ ⟨rfl, hm, -⟩
        exact ih m hm
    | head p => exact Spares.ite (Spares.pure _) Spares.stop _

theorem requeue_spares (hr : q ≠ .ready_queue) : Spares q o (requeue h) := by
  refine Spares.read fun s => ?_
  split
  · exact Spares.ifThen (add_readyqueue_spares hr)
  · exact Spares.pure _

theorem do_scheduler_spares (hr : q ≠ .ready_queue) (hq : q ≠ .sleep_queue) : Spares q o (do_scheduler h) := by
  refine Spares.bind ((nextNode_spares _).bind fun n => checkLoop_spares hr hq _ n) fun _ => Spares.bind ?_ fun b => ?_
  · refine (requeue_spares hr).bind fun _ c => (nextNode_spares _ c).bind (nextNode_mem _) ?_
    rintro n _ ⟨rfl, hn, -⟩
    exact pickLoop_spares hr _ n hn
  · exact Spares.ite (Spares.pure _) (setCurrent_spares _)

theorem suspend_spares (hr : q ≠ .ready_queue) (hq : q ≠ .sleep_queue) (r : Resume) :
    Spares q (some i) (suspend h i r) := by
  refine Spares.bind (fun c => setResume_spares r (Or.inl rfl)) fun _ => ?_
  exact do_scheduler_spares hr hq

theorem blockIn_spares (hr : q ≠ .ready_queue) (hs : q ≠ .sleep_queue) (hq : q' ≠ q) (r : Resume) :
    Spares q (some i) (blockIn h i q' r) := by
  refine Spares.bind (fun c => setResume_spares r (Or.inl rfl)) fun _ => ?_
  exact (do_block_spares hq).bind fun _ => do_scheduler_spares hr hs

/-! ### Calls -/

/-- A queue in which tasks meet: of a barrier or of a condition. -/
def Queue.Meets : Queue → Prop
  | .barrier _ => True
  | .condition _ => True
  | _ => False

/-- A queue that scheduling and mutexes have nothing to do with. -/
def Queue.Aside : Queue → Prop
  | .ready_queue => False
  | .sleep_queue => False
  | .mutex _ => False
  | _ => True

theorem Queue.Meets.aside (hq : q.Meets) : q.Aside := by
  cases q <;> trivial

/-- The calls that neither put tasks into `q` nor take them out. -/
def Call.Spares (q : Queue) : Call → Prop
  | .do_kill _ => False
  | .do_barrier_wait k => q ≠ .barrier k
  | .do_barrier_destroy k => q ≠ .barrier k
  | .do_condition_wait k _ => q ≠ .condition k
  | .do_condition_signal k => q ≠ .condition k
  | .do_condition_broadcast k => q ≠ .condition k
  | .do_condition_destroy k => q ≠ .condition k
  | _ => True

/-- The queues of a mailbox that a task goes on with are not `q`. -/
def Resume.Passes (q : Queue) (r : Resume) : Prop := ∀ k, r.mailbox = some k → .full k ≠ q ∧ .empty k ≠ q

/-- The calls of task `i` that have nothing to do with the end of a task that is waited for in `q`, or with the
mailbox of `q`. -/
def Call.Passes (i : Slot) (q : Queue) : Call → Prop
  | .do_exit => .wait i ≠ q
  | .do_waitpid _ => ∀ j, .wait j ≠ q
  | .do_pthread_join _ => ∀ j, .wait j ≠ q
  | .do_mbox_send k _ _ => .full k ≠ q ∧ .empty k ≠ q
  | .do_mbox_recv k _ => .full k ≠ q ∧ .empty k ≠ q
  | _ => True

/-- The steps that neither put tasks into `q` nor take them out. -/
def Action.Spares (q : Queue) : Action → Prop
  | .call c => c.Spares q
  | _ => True

namespace Queue.Aside

variable (hq : q.Aside)

include hq

theorem ne_ready : q ≠ .ready_queue := by
  rintro rfl
  exact hq

theorem ne_sleep : q ≠ .sleep_queue := by
  rintro rfl
  exact hq

theorem ne_mutex (k : Handle) : Queue.mutex k ≠ q := by
  rintro rfl
  exact hq

theorem scheduler : Spares q o (do_scheduler h) := do_scheduler_spares hq.ne_ready hq.ne_sleep

theorem block (hne : q' ≠ q) (r : Resume) : Spares q (some i) (blockIn h i q' r) :=
  blockIn_spares hq.ne_ready hq.ne_sleep hne r

theorem wake (hne : q' ≠ q) : Spares q o (wakeAll q') := wakeAll_spares hq.ne_ready hne

theorem unlock : Spares q o (unlock k) := Spares.read fun _ => (setMlock_spares _).bind fun _ => hq.wake (hq.ne_mutex k)

theorem acquire : Spares q (some i) (do_mutex_lock_acquire h i k) := by
  refine Spares.read fun s => Spares.ite (hq.block (hq.ne_mutex k) _) ?_
  exact (setMlock_spares _).bind fun _ => (record_spares _).bind fun _ => finish_spares _

theorem release : Spares q o (do_mutex_lock_release i k) := (record_spares _).bind fun _ => hq.unlock

theorem releaseLoop (pid : Int32) (ks : List Handle) : Spares q o (releaseLoop pid ks) := by
  induction ks with
  | nil => exact Spares.pure _
  | cons k ks ih => exact Spares.read fun _ => (Spares.ifThen hq.unlock).bind fun _ => ih

theorem exit (hi : .wait i ≠ q) : Spares q (some i) (do_exit h i) := by
  refine (hq.wake hi).bind fun _ => Spares.read fun s => (hq.releaseLoop _ _).bind fun _ => ?_
  exact releasePages_spares.bind fun _ => setExited_spares.bind fun _ => (record_spares _).bind fun _ => hq.scheduler

/-- The end of `do_exec` and `do_pthread_create`: slot `j` is still free. -/
theorem start {x : SchedM α} (hx : Spares q o x) (hj : c.mem.status j = .TASK_EXITED) : SparesAt q o c (do
    setResume j .user
    add_readyqueue j
    x) := by
  refine (setResume_spares _ (Or.inr hj)).bind (p := fun _ _ => True) (fun _ _ _ => trivial) fun _ c' _ => ?_
  exact (add_readyqueue_spares hq.ne_ready).bind (fun _ => hx) c'

theorem exec (name : Name) : Spares q o (do_exec h name) := by
  intro c
  refine SparesAt.get_bind ?_
  split
  · exact Spares.pure _ _
  · split
    · exact Spares.pure _ _
    · next task _ j hj =>
      refine SparesAt.bind (p := fun _ c' => c'.mem.status = c.mem.status)
        (SparesAt.modify (.of_eq rfl rfl fun _ e => e))
        (Ensures.modify rfl) fun _ c₁ h₁ => ?_
      refine SparesAt.bind (setPcb_spares ?_ c₁) (setPcb_status ?_) fun _ c₂ h₂ => ?_
      · exact fun _ e => e
      · exact fun _ => rfl
      refine (initQueue_spares c₂).bind (p := fun _ c' => c'.mem = c₂.mem)
        (Ensures.perform fun _ _ _ => rfl) fun _ c₃ h₃ => ?_
      refine (processPages_spares _ _ c₃).bind (p := fun _ c' => c'.mem = c₃.mem)
        (Ensures.perform fun _ _ _ => rfl) fun _ c₄ h₄ => ?_
      refine hq.start (Spares.pure _) ?_
      rw [h₄, h₃, h₂, h₁]
      exact get_free_pcb_some hj

theorem taskset_exec (name : Name) (mask : UInt64) : Spares q o (do_taskset_exec h name mask) := by
  refine (hq.exec name).bind fun pid => Spares.ite (Spares.pure _) (Spares.read fun s => ?_)
  split
  · exact Spares.stop
  · refine Spares.bind (setPcb_spares ?_) fun _ => Spares.pure _
    exact fun _ e => e

theorem pthread_create (thread : Int32) : Spares q (some i) (do_pthread_create i thread) := by
  intro c
  refine SparesAt.get_bind ?_
  split
  · exact finish_spares _ _
  · next j hj =>
    refine SparesAt.bind (setPcb_spares ?_ c) (setPcb_status ?_) fun _ c₁ h₁ => ?_
    · exact fun _ e => e
    · exact fun _ => rfl
    refine (initQueue_spares c₁).bind (p := fun _ c' => c'.mem = c₁.mem)
      (Ensures.perform fun _ _ _ => rfl) fun _ c₂ h₂ => ?_
    refine (threadPages_spares _ _ c₂).bind (p := fun _ c' => c'.mem = c₂.mem)
      (Ensures.perform fun _ _ _ => rfl) fun _ c₃ h₃ => ?_
    refine hq.start (finish_spares _) ?_
    rw [h₃, h₂, h₁]
    exact get_free_pcb_some hj

theorem send (hk : .full k ≠ q ∧ .empty k ≠ q) (msg : ℕ → UInt8) (len n : ℤ) :
    Spares q (some i) (do_mbox_send h i k msg len n) := by
  refine Spares.read fun s => Spares.ite Spares.stop (Spares.ite (Spares.ite Spares.stop ?_) (hq.block hk.1 _))
  exact (setMailbox_spares _).bind fun _ => (record_spares _).bind fun _ => (hq.wake hk.2).bind fun _ => finish_spares _

theorem recv (hk : .full k ≠ q ∧ .empty k ≠ q) (len n : ℤ) : Spares q (some i) (do_mbox_recv h i k len n) := by
  refine Spares.read fun s => Spares.ite (Spares.ite Spares.stop ?_) (hq.block hk.2 _)
  exact (setMailbox_spares _).bind fun _ => (record_spares _).bind fun _ => (hq.wake hk.1).bind fun _ => finish_spares _

end Queue.Aside

namespace Queue.Meets

variable (hq : q.Meets)

include hq

theorem ne_wait (i : Slot) : Queue.wait i ≠ q := by
  rintro rfl
  exact hq

theorem ne_box (k : Handle) : .full k ≠ q ∧ .empty k ≠ q := by
  constructor
  · rintro rfl
    exact hq
  · rintro rfl
    exact hq

theorem passes (i : Slot) (call : Call) : call.Passes i q := by
  cases call with
  | do_mbox_send k msg len => exact hq.ne_box k
  | do_mbox_recv k len => exact hq.ne_box k
  | do_exit => exact hq.ne_wait i
  | do_waitpid pid => exact hq.ne_wait
  | do_pthread_join thread => exact hq.ne_wait
  | _ => trivial

theorem exit : Spares q (some i) (do_exit h i) := hq.aside.exit (hq.ne_wait i)

end Queue.Meets

theorem do_taskset_pid_spares (pid : Int32) (mask : UInt64) : Spares q o (do_taskset_pid pid mask) := by
  refine Spares.read fun s => ?_
  split
  · exact Spares.pure _
  · refine Spares.bind (setPcb_spares ?_) fun _ => Spares.pure _
    exact fun _ e => e

theorem do_mutex_lock_init_spares (key : ℤ) : Spares q (some i) (do_mutex_lock_init i key) := by
  refine Spares.read fun s => ?_
  split
  · exact finish_spares _
  · split
    · refine (setMlock_spares _).bind fun _ => Spares.bind (Spares.modify fun m => ?_) fun _ => finish_spares _
      exact .of_eq rfl rfl fun _ e => e
    · exact finish_spares _

/-- A new barrier is not one that is active. -/
theorem do_barrier_init_spares (key goal : ℤ) : Spares q (some i) (do_barrier_init i key goal) := by
  intro c
  refine SparesAt.get_bind ?_
  split
  · exact finish_spares _ _
  · next k hk =>
    have hinact : (c.mem.barrier k).active = false := by
      have := List.find?_some hk
      simpa using this
    refine SparesAt.bind (p := fun _ _ => True)
      (SparesAt.modify ⟨fun k' _ hact => Function.update_of_ne ?_ .., fun _ _ _ => rfl, fun _ _ hs => hs⟩)
      (fun _ _ _ => trivial) fun _ c' _ => ?_
    · rintro rfl
      rw [hinact] at hact
      cases hact
    · exact initQueue_spares.bind (fun _ => finish_spares _) c'

theorem do_condition_init_spares (key : ℤ) : Spares q (some i) (do_condition_init i key) := by
  refine Spares.read fun s => ?_
  split
  · exact finish_spares _
  · exact (setCondition_spares _).bind fun _ => initQueue_spares.bind fun _ => finish_spares _

theorem do_condition_signal_spares (hq : q.Aside) (hc : q ≠ .condition k) :
    Spares q (some i) (do_condition_signal i k) := by
  intro c
  refine (nextNode_spares _ c).bind (nextNode_mem _) ?_
  rintro n c₀ ⟨rfl, hn, -⟩
  cases n with
  | task j =>
    exact (do_unblock_spares hq.ne_ready hc.symm (hn j rfl)).bind (p := fun _ _ => True) (fun _ _ _ => trivial)
      fun _ c' _ => finish_spares _ c'
  | head p => exact Spares.ite (finish_spares _) Spares.stop _

theorem do_mbox_open_spares (name : Name) : Spares q (some i) (do_mbox_open i name) := by
  refine Spares.read fun s => ?_
  split
  · exact (setMailbox_spares _).bind fun _ => finish_spares _
  · split
    · exact finish_spares _
    · refine (setMailbox_spares _).bind fun _ => initQueue_spares.bind fun _ => initQueue_spares.bind fun _ => ?_
      exact (record_spares _).bind fun _ => finish_spares _

theorem handle_syscall_spares (hq : q.Aside) {call : Call} (hc : call.Spares q) (hw : call.Passes i q) :
    Spares q (some i) (handle_syscall h i call) := by
  cases call with
  | do_scheduler => exact suspend_spares hq.ne_ready hq.ne_sleep _
  | do_sleep t =>
    refine get_timer_spares.bind fun _ => Spares.bind (setPcb_spares ?_) fun _ => hq.block hq.ne_sleep.symm _
    exact fun _ e => e
  | do_exec name => exact (hq.exec name).bind fun _ => finish_spares _
  | do_exit => exact hq.exit hw
  | do_kill pid => exact hc.elim
  | do_waitpid pid =>
    refine Spares.read fun s => ?_
    split
    · exact finish_spares _
    · exact hq.block (hw _) _
  | do_taskset_exec name mask => exact (hq.taskset_exec name mask).bind fun _ => finish_spares _
  | do_taskset_pid pid mask => exact (do_taskset_pid_spares pid mask).bind fun _ => finish_spares _
  | do_pthread_create thread => exact hq.pthread_create thread
  | do_pthread_join thread =>
    refine Spares.read fun s => ?_
    split
    · exact finish_spares _
    · exact hq.block (hw _) _
  | do_mutex_lock_init key => exact do_mutex_lock_init_spares key
  | do_mutex_lock_acquire k => exact hq.acquire
  | do_mutex_lock_release k => exact hq.release.bind fun _ => finish_spares _
  | do_barrier_init key goal => exact do_barrier_init_spares key goal
  | do_barrier_wait k =>
    refine Spares.read fun s => (setBarrier_spares hc _).bind fun _ => Spares.ite ?_ (hq.block (Ne.symm hc) _)
    exact (hq.wake (Ne.symm hc)).bind fun _ => (setBarrier_spares hc _).bind fun _ => finish_spares _
  | do_barrier_destroy k =>
    exact (hq.wake (Ne.symm hc)).bind fun _ => Spares.read fun _ =>
      (setBarrier_spares hc _).bind fun _ => finish_spares _
  | do_condition_init key => exact do_condition_init_spares key
  | do_condition_wait k m =>
    refine Spares.bind (fun c => setResume_spares _ (Or.inl rfl)) fun _ =>
      (do_block_spares (Ne.symm hc)).bind fun _ => ?_
    exact hq.release.bind fun _ => hq.scheduler
  | do_condition_signal k => exact do_condition_signal_spares hq hc
  | do_condition_broadcast k => exact (hq.wake (Ne.symm hc)).bind fun _ => finish_spares _
  | do_condition_destroy k =>
    exact (hq.wake (Ne.symm hc)).bind fun _ => Spares.read fun _ =>
      (setCondition_spares _).bind fun _ => finish_spares _
  | do_mbox_open name => exact do_mbox_open_spares name
  | do_mbox_close k => exact Spares.read fun _ => (setMailbox_spares _).bind fun _ => finish_spares _
  | do_mbox_send k msg len => exact hq.send hw msg len 0
  | do_mbox_recv k len => exact hq.recv hw len 0

theorem goOn_spares (hq : q.Aside) (msg : ℕ → UInt8) (r : Resume) (hr : r.Passes q) :
    Spares q (some i) (goOn h i msg r) := by
  cases r with
  | user => exact Spares.pure _
  | ret v => exact finish_spares v
  | acquire k => exact hq.acquire
  | send k len n => exact hq.send (hr k rfl) msg len n
  | recv k len n => exact hq.recv (hr k rfl) len n

/-- A step that has nothing to do with the queue leaves it as it is. -/
theorem act_aside (hq : q.Aside) {a : Action} (ha : a.Spares q)
    (hw : ∀ i call, c.mem.current_running h = some i → a = .call call → call.Passes i q)
    (hr : ∀ i msg, c.mem.current_running h = some i → a = .resume msg → (c.mem.resume i).Passes q) :
    SparesAt q (c.mem.current_running h) c (act h a) := by
  refine SparesAt.get_bind ?_
  split
  · next i msg hi => exact hi ▸ goOn_spares hq msg _ (hr i msg hi rfl) c
  · next i hi => exact hi ▸ Spares.ite hq.scheduler (suspend_spares hq.ne_ready hq.ne_sleep _) c
  · next i call hi => exact hi ▸ Spares.ite hq.scheduler (handle_syscall_spares hq ha (hw i call hi rfl)) c
  · exact hq.scheduler c
  · exact (hq.exec _).bind (fun _ => Spares.pure _) c
  · exact (hq.taskset_exec _ _).bind (fun _ => Spares.pure _) c
  · exact (do_taskset_pid_spares _ _).bind (fun _ => Spares.pure _) c
  · exact Spares.stop c

theorem act_spares (hq : q.Meets) {a : Action} (ha : a.Spares q) : SparesAt q (c.mem.current_running h) c (act h a) :=
  act_aside hq.aside ha (fun i call _ _ => hq.passes i call) fun _ _ _ _ k _ => hq.ne_box k

/-! ### Steps -/

/-- A system call of a running task. -/
theorem Ensures.act_call {e : Call} {post : Unit → St → Prop}
    (ha : At h i c) (hx : Ensures listed c (handle_syscall h i e) post) :
    Ensures listed c (act h (.call e)) post := by
  have hex : (c.mem.pcb i).status ≠ .TASK_EXITED := by
    have := ha.running
    rw [Kernel.status] at this
    rw [this]
    decide
  refine Ensures.get_bind ?_
  simpa only [ha.here, if_neg hex] using hx

theorem killOk_of_ne {m : Kernel} {a : Action} (hp : ∀ pid, a ≠ .call (.do_kill pid)) : KillOk m h a :=
  fun pid e => absurd e (hp pid)

/-- A call that `main` does not make on a `pid0` PCB is made by a task. -/
theorem exists_task {call : Call} {r : Unit × St} (he : exec listed (act h (.call call)) c = some r)
    (hc : ∀ name mask pid, call ≠ .do_exec name ∧ call ≠ .do_taskset_exec name mask ∧ call ≠ .do_taskset_pid pid mask) :
    ∃ i, c.mem.current_running h = some i := by
  cases hi : c.mem.current_running h with
  | some i => exact ⟨i, rfl⟩
  | none =>
    have hstop : exec listed (act h (.call call)) c = none := by
      rw [act, exec_bind, exec_get, Option.bind_some]
      simp only [hi]
      cases call with
      | do_exec name => exact absurd rfl (hc name 0 0).1
      | do_taskset_exec name mask => exact absurd rfl (hc name mask 0).2.1
      | do_taskset_pid pid mask => exact absurd rfl (hc ⟨[], by decide⟩ mask pid).2.2
      | _ => rfl
    rw [hstop] at he
    cases he

end OsLab.Sched
