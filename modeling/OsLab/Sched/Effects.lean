import OsLab.Lib.Hoare
import OsLab.Sched.Model

/-!
# What the functions leave alone

Facts about the kernel's variables that hold whatever state the queues are in. Moving tasks
between queues is `Noise` to mutexes, mailboxes and the history: it changes statuses and running tasks,
but never ends a task, and it does not touch the task that another hart runs. Most system calls are
noise from beginning to end.
-/

namespace OsLab.Sched

open Lib ProgM

variable {h : Hart} {o : Option Slot} {i j : Slot} {q : Queue} {k : Handle}

/-- The status of a task. -/
def Kernel.status (s : Kernel) (i : Slot) : TaskStatus := (s.pcb i).status

/-- The running tasks of the other harts stay. -/
def OthersStay (h : Hart) (m m' : Kernel) : Prop := ∀ h', h' ≠ h → m'.current_running h' = m.current_running h'

instance : Std.Refl (OthersStay h) := ⟨fun _ _ _ => rfl⟩

instance : IsTrans Kernel (OthersStay h) := ⟨fun _ _ _ h₁ h₂ h' hne => (h₂ h' hne).trans (h₁ h' hne)⟩

/-- A task that a hart has to go on with in the kernel has not ended. -/
def Live (m : Kernel) : Prop := ∀ h i, m.current_running h = some i → m.resume i ≠ .user → m.status i ≠ .TASK_EXITED

/-- Tasks are moved between queues by hart `h`, for the running task `o`. -/
structure Noise (h : Hart) (o : Option Slot) (m m' : Kernel) : Prop where
  others : OthersStay h m m'
  log : m'.log = m.log
  mailbox : m'.mailbox = m.mailbox
  locked : ∀ k, (m'.mlocks k).locked = (m.mlocks k).locked
  owner : ∀ k, (m'.mlocks k).pid = (m.mlocks k).pid
  pid : ∀ i, (m'.pcb i).pid = (m.pcb i).pid
  exited : ∀ i, m'.status i = .TASK_EXITED → m.status i = .TASK_EXITED
  live : (∀ i, o = some i → m.status i ≠ .TASK_EXITED) → Live m → Live m'

instance : Std.Refl (Noise h o) :=
  ⟨fun _ => ⟨fun _ _ => rfl, rfl, rfl, fun _ => rfl, fun _ => rfl, fun _ => rfl, fun _ e => e, fun _ hl => hl⟩⟩

instance : IsTrans Kernel (Noise h o) := ⟨fun _ _ _ n₁ n₂ =>
  ⟨fun h' hne => (n₂.others h' hne).trans (n₁.others h' hne), n₂.log.trans n₁.log, n₂.mailbox.trans n₁.mailbox,
    fun k => (n₂.locked k).trans (n₁.locked k),
    fun k => (n₂.owner k).trans (n₁.owner k), fun i => (n₂.pid i).trans (n₁.pid i),
    fun i e => n₁.exited i (n₂.exited i e),
    fun ho hl => n₂.live (fun i hi e => ho i hi (n₁.exited i e)) (n₁.live ho hl)⟩⟩

/-! ### Primitives -/

theorem Live.of_eq {m m' : Kernel} (hl : Live m) (hc : m'.current_running = m.current_running)
    (hr : ∀ i, m'.resume i = m.resume i ∨ m'.resume i = .user)
    (hs : ∀ i, m'.status i = .TASK_EXITED → m.status i = .TASK_EXITED) :
    Live m' := by
  intro h i hi hu e
  rw [hc] at hi
  rcases hr i with hr | hr
  · rw [hr] at hu
    exact hl h i hi hu (hs i e)
  · exact hu hr

/-- Variables that are noise change. -/
theorem Noise.of_eq {m m' : Kernel} (h1 : m'.current_running = m.current_running)
    (h2 : m'.log = m.log) (h3 : m'.mailbox = m.mailbox)
    (h4 : m'.mlocks = m.mlocks) (h5 : m'.pcb = m.pcb) (h6 : ∀ i, m'.resume i = m.resume i ∨ m'.resume i = .user) :
    Noise h o m m' := by
  have hs : ∀ i, m'.status i = .TASK_EXITED → m.status i = .TASK_EXITED := by
    intro i
    rw [Kernel.status, Kernel.status, h5]
    exact fun e => e
  exact ⟨fun h' _ => by rw [h1], h2, h3, fun k => by rw [h4], fun k => by rw [h4], fun i => by rw [h5], hs,
    fun _ hl => hl.of_eq h1 h6 hs⟩

/-- A task gets new fields, but keeps its pid and does not end. -/
theorem setPcb_noise {f : Pcb → Pcb} (hp : ∀ p, (f p).pid = p.pid)
    (hs : ∀ p, (f p).status = .TASK_EXITED → p.status = .TASK_EXITED) :
    Keeps (Noise h o) (setPcb i f) := by
  refine Keeps.modify fun m => ?_
  have hex : ∀ j, (Function.update m.pcb i (f (m.pcb i)) j).status = .TASK_EXITED → m.status j = .TASK_EXITED := by
    intro j
    by_cases hj : j = i
    · subst hj
      simpa [Kernel.status] using hs _
    · simp [Kernel.status, hj]
  refine ⟨fun _ _ => rfl, rfl, rfl, fun _ => rfl, fun _ => rfl,
    fun j => ?_, hex, fun _ hl => hl.of_eq rfl (fun _ => Or.inl rfl) hex⟩
  by_cases hj : j = i
  · subst hj
    simp [hp]
  · simp [hj]

theorem setStatus_noise {st : TaskStatus} (hs : st ≠ .TASK_EXITED) : Keeps (Noise h o) (setStatus i st) :=
  setPcb_noise (fun _ => rfl) (fun _ e => absurd e hs)

/-- The running task notes where it will go on. -/
theorem setResume_noise (r : Resume) : Keeps (Noise h (some i)) (setResume i r) := by
  refine Keeps.modify fun m => ⟨fun _ _ => rfl, rfl, rfl, fun _ => rfl,
    fun _ => rfl, fun _ => rfl, fun _ e => e, fun ho hl => ?_⟩
  intro h' j hj hu
  by_cases hji : j = i
  · subst hji
    exact ho j rfl
  · refine hl h' j hj ?_
    simpa [hji] using hu

theorem finish_noise (v : ℤ) : Keeps (Noise h o) (finish i v) := by
  refine Keeps.modify fun m => .of_eq rfl rfl rfl rfl rfl fun j => ?_
  by_cases hji : j = i
  · subst hji
    exact Or.inr (Function.update_self ..)
  · exact Or.inl (Function.update_of_ne hji ..)

theorem setBarrier_noise (b : Barrier) : Keeps (Noise h o) (setBarrier k b) :=
  Keeps.modify fun _ => .of_eq rfl rfl rfl rfl rfl fun _ => Or.inl rfl

theorem setCondition_noise (b : Condition) : Keeps (Noise h o) (setCondition k b) :=
  Keeps.modify fun _ => .of_eq rfl rfl rfl rfl rfl fun _ => Or.inl rfl

/-- A hart goes back to its `pid0` PCB. -/
theorem setCurrent_noise : Keeps (Noise h o) (setCurrent h none) := by
  refine Keeps.modify fun m => ⟨fun h' hne => Function.update_of_ne hne ..,
    rfl, rfl, fun _ => rfl, fun _ => rfl, fun _ => rfl,
    fun _ e => e, fun _ hl h' i hi hu => hl h' i ?_ hu⟩
  by_cases hh : h' = h
  · subst hh
    simp at hi
  · simpa [hh] using hi

theorem get_timer_noise : Keeps (Noise h o) get_timer :=
  Keeps.read fun _ => Keeps.bind (Keeps.modify fun _ => .of_eq rfl rfl rfl rfl rfl fun _ => Or.inl rfl) fun _ =>
    Keeps.pure _

theorem ifThen_keeps {r : Kernel → Kernel → Prop} [Std.Refl r]
    {p : Prop} [Decidable p] {x : SchedM Unit} (hx : Keeps r x) :
    Keeps r (ifThen p x) := Keeps.ite hx (Keeps.pure _)

/-! ### Queues -/

/-- A relation that holds across what the queues and the scheduler of hart `h` are made of. -/
structure Queueing (h : Hart) (r : Kernel → Kernel → Prop) : Prop where
  status : ∀ i st, st ≠ .TASK_EXITED → Keeps r (setStatus i st)
  timer : Keeps r get_timer
  pick : ∀ j b, Keeps r (do
    setCurrent h (some j)
    remove_readyqueue j
    setPcb j fun p => { p with status := .TASK_RUNNING, current_cpu_id := UInt64.ofNat h }
    pure b : SchedM Bool)
  idle : Keeps r (setCurrent h none)

namespace Queueing

variable {r : Kernel → Kernel → Prop} [Std.Refl r] [IsTrans Kernel r]

theorem add_readyqueue (hr : Queueing h r) : Keeps r (add_readyqueue i) :=
  (hr.status i _ (by decide)).bind fun _ => Keeps.perform _

theorem do_block (hr : Queueing h r) : Keeps r (do_block i q) :=
  (Keeps.perform (Op.enqueue i q)).bind fun _ => hr.status i _ (by decide)

theorem do_unblock (hr : Queueing h r) : Keeps r (do_unblock i) :=
  (Keeps.perform (Op.unlink i)).bind fun _ => hr.add_readyqueue

theorem wakeLoop (hr : Queueing h r) (fuel : ℕ) : Keeps r (wakeLoop q fuel) := by
  induction fuel with
  | zero => exact Keeps.stop
  | succ fuel ih =>
    rw [Sched.wakeLoop]
    refine (Keeps.perform (Op.next q (.head q))).bind fun n => ?_
    cases n with
    | task j => exact hr.do_unblock.bind fun _ => ih
    | head q' => exact Keeps.ite (Keeps.pure _) Keeps.stop

theorem wakeAll (hr : Queueing h r) : Keeps r (wakeAll q) := hr.wakeLoop _

theorem checkLoop (hr : Queueing h r) (fuel : ℕ) (n : Node) : Keeps r (checkLoop fuel n) := by
  induction fuel generalizing n with
  | zero => exact Keeps.stop
  | succ fuel ih =>
    cases n with
    | task j =>
      rw [Sched.checkLoop]
      refine (Keeps.perform (Op.next _ _)).bind fun n => Keeps.read fun s => hr.timer.bind fun now => ?_
      exact (ifThen_keeps hr.do_unblock).bind fun _ => ih n
    | head q' => exact Keeps.ite (Keeps.pure _) Keeps.stop

theorem check_sleeping (hr : Queueing h r) : Keeps r check_sleeping :=
  (Keeps.perform (Op.next _ _)).bind fun _ => hr.checkLoop _ _

theorem pickLoop (hr : Queueing h r) (fuel : ℕ) (n : Node) : Keeps r (pickLoop h fuel n) := by
  induction fuel generalizing n with
  | zero => exact Keeps.stop
  | succ fuel ih =>
    cases n with
    | task j =>
      rw [Sched.pickLoop]
      exact Keeps.read fun s => Keeps.ite (hr.pick j true) ((Keeps.perform (Op.next _ _)).bind fun n => ih n)
    | head q' => exact Keeps.ite (Keeps.pure _) Keeps.stop

theorem requeue (hr : Queueing h r) : Keeps r (requeue h) := by
  refine Keeps.read fun s => ?_
  split
  · exact ifThen_keeps hr.add_readyqueue
  · exact Keeps.pure _

theorem do_scheduler (hr : Queueing h r) : Keeps r (do_scheduler h) := by
  refine hr.check_sleeping.bind fun _ => Keeps.bind ?_ fun b => ?_
  · exact hr.requeue.bind fun _ => (Keeps.perform (Op.next _ _)).bind fun _ => hr.pickLoop _ _
  · exact Keeps.ite (Keeps.pure _) hr.idle

end Queueing

/-- A hart switches to task `j`. -/
theorem pick_noise (b : Bool) : Keeps (Noise h o) (do
    setCurrent h (some j)
    remove_readyqueue j
    setPcb j fun p => { p with status := .TASK_RUNNING, current_cpu_id := UInt64.ofNat h }
    pure b : SchedM Bool) := by
  intro m
  refine Partial.bind (q := fun _ m₁ => m₁ = { m with current_running := Function.update m.current_running h (some j) })
    (Partial.modify rfl) fun _ m₁ h₁ => ?_
  refine Partial.bind (q := fun _ m₂ => m₂ = m₁) (Partial.perform fun _ => rfl) fun _ m₂ h₂ => ?_
  subst h₂ h₁
  refine Partial.bind (q := fun _ m₃ => Noise h o m m₃) (Partial.modify ?_) fun _ m₃ h₃ => Partial.pure h₃
  refine ⟨fun h' hne => Function.update_of_ne hne .., rfl, rfl, fun _ => rfl,
    fun _ => rfl, fun i => ?_, fun i => ?_, fun _ hl h' i hi hu => ?_⟩
  · by_cases hij : i = j
    · subst hij
      simp
    · simp [hij]
  · by_cases hij : i = j
    · subst hij
      simp [Kernel.status]
    · simp [Kernel.status, hij]
  · by_cases hij : i = j
    · subst hij
      simp [Kernel.status]
    · have hne : h' ≠ h := by
        rintro rfl
        simp only [Function.update_self, Option.some.injEq] at hi
        exact hij hi.symm
      simp only [Function.update_of_ne hne] at hi
      simpa [Kernel.status, hij] using hl h' i hi hu

theorem noise_queueing : Queueing h (Noise h o) :=
  ⟨fun _ _ hs => setStatus_noise hs, get_timer_noise, fun _ b => pick_noise b, setCurrent_noise⟩

theorem add_readyqueue_noise : Keeps (Noise h o) (add_readyqueue i) := noise_queueing.add_readyqueue

theorem do_block_noise : Keeps (Noise h o) (do_block i q) := noise_queueing.do_block

theorem do_unblock_noise : Keeps (Noise h o) (do_unblock i) := noise_queueing.do_unblock

theorem remove_pcb_queue_noise : Keeps (Noise h o) (remove_pcb_queue i) :=
  (Keeps.perform (Op.linked i)).bind fun _ => Keeps.ite (Keeps.perform (Op.unlink i)) (Keeps.pure _)

theorem wakeAll_noise : Keeps (Noise h o) (wakeAll q) := noise_queueing.wakeAll

theorem check_sleeping_noise : Keeps (Noise h o) check_sleeping := noise_queueing.check_sleeping

/-- The scheduler is noise. -/
theorem do_scheduler_noise : Keeps (Noise h o) (do_scheduler h) := noise_queueing.do_scheduler

theorem suspend_noise (r : Resume) : Keeps (Noise h (some i)) (suspend h i r) :=
  (setResume_noise r).bind fun _ => do_scheduler_noise

theorem blockIn_noise (r : Resume) : Keeps (Noise h (some i)) (blockIn h i q r) :=
  (setResume_noise r).bind fun _ => do_block_noise.bind fun _ => do_scheduler_noise

/-! ### Calls that are noise -/

theorem do_sleep_noise (t : UInt32) : Keeps (Noise h (some i)) (do_sleep h i t) := by
  refine get_timer_noise.bind fun now => Keeps.bind (setPcb_noise ?_ ?_) fun _ => blockIn_noise _
  · exact fun _ => rfl
  · exact fun _ e => e

theorem do_waitpid_noise (pid : Int32) : Keeps (Noise h (some i)) (do_waitpid h i pid) := by
  refine Keeps.read fun s => ?_
  split
  · exact finish_noise _
  · exact blockIn_noise _

theorem do_pthread_join_noise (thread : Int32) : Keeps (Noise h (some i)) (do_pthread_join h i thread) := by
  refine Keeps.read fun s => ?_
  split
  · exact finish_noise _
  · exact blockIn_noise _

theorem do_taskset_pid_noise (pid : Int32) (mask : UInt64) : Keeps (Noise h o) (do_taskset_pid pid mask) := by
  refine Keeps.read fun s => ?_
  split
  · exact Keeps.pure _
  · refine Keeps.bind (setPcb_noise ?_ ?_) fun _ => Keeps.pure _
    · exact fun _ => rfl
    · exact fun _ e => e

theorem do_mutex_lock_init_noise (key : ℤ) : Keeps (Noise h o) (do_mutex_lock_init i key) := by
  refine Keeps.get_bind fun m => ?_
  split
  · exact finish_noise _ m
  · split
    · refine Partial.bind (q := fun _ m' => Noise h o m m') (Partial.modify ?_) fun _ m₁ h₁ => ?_
      · refine ⟨fun _ _ => rfl, rfl, rfl, fun k => ?_, fun k => ?_, fun _ => rfl, fun _ e => e, fun _ hl => hl⟩
        · simp only [Function.update_apply]
          split
          · next e => rw [e]
          · rfl
        · simp only [Function.update_apply]
          split
          · next e => rw [e]
          · rfl
      · have hrest : Keeps (Noise h o) (do
            modify fun s : Kernel => { s with last_lockid := s.last_lockid + 1 }
            finish i m.last_lockid : SchedM Unit) :=
          Keeps.bind (Keeps.modify fun _ => .of_eq rfl rfl rfl rfl rfl fun _ => Or.inl rfl) fun _ => finish_noise _
        exact (hrest m₁).mono fun _ m' h' => IsTrans.trans _ _ _ h₁ h'
    · exact finish_noise _ m

theorem do_barrier_init_noise (key goal : ℤ) : Keeps (Noise h o) (do_barrier_init i key goal) := by
  refine Keeps.read fun s => ?_
  split
  · exact finish_noise _
  · exact (setBarrier_noise _).bind fun _ => (Keeps.perform (Op.init _)).bind fun _ => finish_noise _

theorem do_barrier_wait_noise : Keeps (Noise h (some i)) (do_barrier_wait h i k) :=
  Keeps.read fun _ => (setBarrier_noise _).bind fun _ => Keeps.ite
    (wakeAll_noise.bind fun _ => (setBarrier_noise _).bind fun _ => finish_noise _) (blockIn_noise _)

theorem do_barrier_destroy_noise : Keeps (Noise h o) (do_barrier_destroy i k) :=
  wakeAll_noise.bind fun _ => Keeps.read fun _ => (setBarrier_noise _).bind fun _ => finish_noise _

theorem do_condition_init_noise (key : ℤ) : Keeps (Noise h o) (do_condition_init i key) := by
  refine Keeps.read fun s => ?_
  split
  · exact finish_noise _
  · exact (setCondition_noise _).bind fun _ => (Keeps.perform (Op.init _)).bind fun _ => finish_noise _

theorem do_condition_signal_noise : Keeps (Noise h o) (do_condition_signal i k) := by
  refine (Keeps.perform (Op.next _ _)).bind fun n => ?_
  cases n with
  | task j => exact do_unblock_noise.bind fun _ => finish_noise _
  | head q => exact Keeps.ite (finish_noise _) Keeps.stop

theorem do_condition_broadcast_noise : Keeps (Noise h o) (do_condition_broadcast i k) :=
  wakeAll_noise.bind fun _ => finish_noise _

theorem do_condition_destroy_noise : Keeps (Noise h o) (do_condition_destroy i k) :=
  wakeAll_noise.bind fun _ => Keeps.read fun _ => (setCondition_noise _).bind fun _ => finish_noise _

/-! ### Relations that every action respects -/

/-- An event about tasks and mutexes. -/
def Event.isTask : Event → Prop
  | .acquired .. | .released .. | .ended _ => True
  | _ => False

/-- A relation that moves of tasks, and changes of tasks and mutexes, respect. -/
structure Ambient (h : Hart) (r : Kernel → Kernel → Prop) : Prop where
  noise : ∀ {o m m'}, Noise h o m m' → r m m'
  pcb : ∀ m f, r m { m with pcb := f }
  mlocks : ∀ m f, r m { m with mlocks := f }
  process_id : ∀ m n, r m { m with process_id := n }
  log : ∀ m {e : Event}, e.isTask → r m { m with log := m.log ++ [e] }

namespace Ambient

variable {r : Kernel → Kernel → Prop}

theorem quiet {α : Type} {x : SchedM α} (hr : Ambient h r) (hx : Keeps (Noise h none) x) : Keeps r x :=
  hx.mono fun _ _ => hr.noise

theorem acting {α : Type} {x : SchedM α} (hr : Ambient h r) (hx : Keeps (Noise h (some i)) x) : Keeps r x :=
  hx.mono fun _ _ => hr.noise

theorem setPcb (hr : Ambient h r) (f : Pcb → Pcb) : Keeps r (setPcb i f) := Keeps.modify fun m => hr.pcb m _

theorem setMlock (hr : Ambient h r) (b : MutexLock) : Keeps r (setMlock k b) := Keeps.modify fun m => hr.mlocks m _

theorem record (hr : Ambient h r) (e : Event) (he : e.isTask) : Keeps r (record e) := Keeps.modify fun m => hr.log m he

theorem releasePages [Std.Refl r] : Keeps r (releasePages i) :=
  Keeps.read fun _ => ifThen_keeps (Keeps.perform (Op.releasePages _ _))

variable [IsTrans Kernel r]

theorem unlock (hr : Ambient h r) : Keeps r (unlock k) :=
  Keeps.read fun _ => (hr.setMlock _).bind fun _ => hr.quiet wakeAll_noise

theorem do_mutex_lock_release (hr : Ambient h r) : Keeps r (do_mutex_lock_release i k) :=
  (hr.record (.released i k) trivial).bind fun _ => hr.unlock

theorem do_mutex_lock_acquire (hr : Ambient h r) : Keeps r (do_mutex_lock_acquire h i k) := by
  refine Keeps.read fun _ => Keeps.ite (hr.acting (blockIn_noise _)) ?_
  exact (hr.setMlock _).bind fun _ => (hr.record (.acquired i k) trivial).bind fun _ => hr.quiet (finish_noise _)

theorem do_condition_wait (hr : Ambient h r) (m : Handle) : Keeps r (do_condition_wait h i k m) := by
  refine (hr.acting (setResume_noise _)).bind fun _ => (hr.quiet do_block_noise).bind fun _ => ?_
  exact hr.do_mutex_lock_release.bind fun _ => hr.quiet do_scheduler_noise

variable [Std.Refl r]

theorem releaseLoop (hr : Ambient h r) (pid : Int32) (ks : List Handle) : Keeps r (releaseLoop pid ks) := by
  induction ks with
  | nil => exact Keeps.pure _
  | cons k ks ih => exact Keeps.read fun _ => (ifThen_keeps hr.unlock).bind fun _ => ih

theorem do_exec (hr : Ambient h r) (name : Name) : Keeps r (do_exec h name) := by
  refine Keeps.read fun s => ?_
  split
  · exact Keeps.pure _
  · split
    · exact Keeps.pure _
    · refine Keeps.bind (Keeps.modify fun m => hr.process_id m _) fun _ =>
        (hr.setPcb _).bind fun _ => (Keeps.perform (Op.init _)).bind fun _ => ?_
      refine (Keeps.perform (Op.processPages _ _ _)).bind fun _ => (hr.acting (setResume_noise _)).bind fun _ => ?_
      exact (hr.quiet add_readyqueue_noise).bind fun _ => Keeps.pure _

theorem do_taskset_exec (hr : Ambient h r) (name : Name) (mask : UInt64) : Keeps r (do_taskset_exec h name mask) := by
  refine (hr.do_exec name).bind fun pid => Keeps.ite (Keeps.pure _) (Keeps.read fun s => ?_)
  split
  · exact Keeps.stop
  · exact (hr.setPcb _).bind fun _ => Keeps.pure _

theorem do_pthread_create (hr : Ambient h r) (thread : Int32) : Keeps r (do_pthread_create i thread) := by
  refine Keeps.read fun s => ?_
  split
  · exact hr.quiet (finish_noise _)
  · refine (hr.setPcb _).bind fun _ => (Keeps.perform (Op.init _)).bind fun _ =>
      (Keeps.perform (Op.threadPages _ _ _)).bind fun _ => ?_
    exact hr.acting ((setResume_noise _).bind fun _ => add_readyqueue_noise.bind fun _ => finish_noise _)

theorem do_exit (hr : Ambient h r) : Keeps r (do_exit h i) := by
  refine (hr.quiet wakeAll_noise).bind fun _ => Keeps.read fun s => (hr.releaseLoop _ _).bind fun _ => ?_
  exact releasePages.bind fun _ => (hr.setPcb _).bind fun _ =>
    (hr.record (.ended i) trivial).bind fun _ => hr.quiet do_scheduler_noise

theorem killPcb (hr : Ambient h r) (pid : Int32) : Keeps r (killPcb j pid) := by
  refine (hr.quiet wakeAll_noise).bind fun _ => (hr.releaseLoop _ _).bind fun _ => releasePages.bind fun _ => ?_
  exact (hr.setPcb _).bind fun _ => (hr.record (.ended j) trivial).bind fun _ => hr.quiet remove_pcb_queue_noise

theorem killLoop (hr : Ambient h r) (pid : Int32) (fuel : ℕ) : Keeps r (killLoop h i pid fuel) := by
  induction fuel with
  | zero => exact Keeps.stop
  | succ fuel ih =>
    refine Keeps.read fun s => ?_
    split
    · exact hr.quiet (finish_noise _)
    · exact Keeps.ite hr.do_exit ((hr.killPcb pid).bind fun _ => ih)

end Ambient

/-- The functions on mailboxes respect a relation. -/
structure Boxes (h : Hart) (r : Kernel → Kernel → Prop) : Prop where
  open' : ∀ i name, Keeps r (do_mbox_open i name)
  close : ∀ i k, Keeps r (do_mbox_close i k)
  send : ∀ i k msg len n, Keeps r (do_mbox_send h i k msg len n)
  recv : ∀ i k len n, Keeps r (do_mbox_recv h i k len n)

/-- The functions on mailboxes respect a relation from the memory `m`. -/
structure BoxesAt (h : Hart) (r : Kernel → Kernel → Prop) (m : Kernel) : Prop where
  open' : ∀ i name, Partial m (do_mbox_open i name) fun _ m' => r m m'
  close : ∀ i k, Partial m (do_mbox_close i k) fun _ m' => r m m'
  send : ∀ i k msg len n, Partial m (do_mbox_send h i k msg len n) fun _ m' => r m m'
  recv : ∀ i k len n, Partial m (do_mbox_recv h i k len n) fun _ m' => r m m'

theorem Boxes.at {r : Kernel → Kernel → Prop} (hb : Boxes h r) (m : Kernel) : BoxesAt h r m :=
  ⟨fun i name => hb.open' i name m, fun i k => hb.close i k m, fun i k msg len n => hb.send i k msg len n m,
    fun i k len n => hb.recv i k len n m⟩

section Act

variable {r : Kernel → Kernel → Prop} [Std.Refl r] [IsTrans Kernel r] {m : Kernel}

theorem handle_syscall_partial (hr : Ambient h r) (hb : BoxesAt h r m) (c : Call) :
    Partial m (handle_syscall h i c) fun _ m' => r m m' := by
  cases c with
  | do_scheduler => exact hr.acting (suspend_noise _) m
  | do_sleep t => exact hr.acting (do_sleep_noise t) m
  | do_exec name => exact (hr.do_exec name).bind (fun _ => hr.quiet (finish_noise _)) m
  | do_exit => exact hr.do_exit m
  | do_kill pid => exact hr.killLoop pid _ m
  | do_waitpid pid => exact hr.acting (do_waitpid_noise pid) m
  | do_taskset_exec name mask => exact (hr.do_taskset_exec name mask).bind (fun _ => hr.quiet (finish_noise _)) m
  | do_taskset_pid pid mask => exact hr.quiet ((do_taskset_pid_noise pid mask).bind fun _ => finish_noise _) m
  | do_pthread_create thread => exact hr.do_pthread_create thread m
  | do_pthread_join thread => exact hr.acting (do_pthread_join_noise thread) m
  | do_mutex_lock_init key => exact hr.quiet (do_mutex_lock_init_noise key) m
  | do_mutex_lock_acquire k => exact hr.do_mutex_lock_acquire m
  | do_mutex_lock_release k => exact hr.do_mutex_lock_release.bind (fun _ => hr.quiet (finish_noise _)) m
  | do_barrier_init key goal => exact hr.quiet (do_barrier_init_noise key goal) m
  | do_barrier_wait k => exact hr.acting do_barrier_wait_noise m
  | do_barrier_destroy k => exact hr.quiet do_barrier_destroy_noise m
  | do_condition_init key => exact hr.quiet (do_condition_init_noise key) m
  | do_condition_wait k x => exact hr.do_condition_wait x m
  | do_condition_signal k => exact hr.quiet do_condition_signal_noise m
  | do_condition_broadcast k => exact hr.quiet do_condition_broadcast_noise m
  | do_condition_destroy k => exact hr.quiet do_condition_destroy_noise m
  | do_mbox_open name => exact hb.open' i name
  | do_mbox_close k => exact hb.close i k
  | do_mbox_send k msg len => exact hb.send i k msg len 0
  | do_mbox_recv k len => exact hb.recv i k len 0

theorem goOn_partial (hr : Ambient h r) (hb : BoxesAt h r m) (msg : ℕ → UInt8) (w : Resume) :
    Partial m (goOn h i msg w) fun _ m' => r m m' := by
  cases w with
  | user => exact Keeps.pure _ m
  | ret v => exact hr.quiet (finish_noise v) m
  | acquire k => exact hr.do_mutex_lock_acquire m
  | send k len n => exact hb.send i k msg len n
  | recv k len n => exact hb.recv i k len n

/-- What all the functions respect, every action respects. -/
theorem act_partial (hr : Ambient h r) (hb : BoxesAt h r m) (a : Action) : Partial m (act h a) fun _ m' => r m m' := by
  refine Partial.get_bind ?_
  split
  · exact goOn_partial hr hb _ _
  · exact Partial.ite (fun _ => hr.quiet do_scheduler_noise m) fun _ => hr.acting (suspend_noise _) m
  · exact Partial.ite (fun _ => hr.quiet do_scheduler_noise m) fun _ => handle_syscall_partial hr hb _
  · exact hr.quiet do_scheduler_noise m
  · exact (hr.do_exec _).bind (fun _ => Keeps.pure _) m
  · exact (hr.do_taskset_exec _ _).bind (fun _ => Keeps.pure _) m
  · exact hr.quiet ((do_taskset_pid_noise _ _).bind fun _ => Keeps.pure _) m
  · exact Partial.stop

theorem act_keeps (hr : Ambient h r) (hb : Boxes h r) (a : Action) :
    Keeps r (act h a) := fun m => act_partial hr (hb.at m) a

end Act

/-! ### The running tasks of the other harts -/

theorem othersStay_ambient : Ambient h (OthersStay h) :=
  ⟨fun n => n.others, fun _ _ _ _ => rfl, fun _ _ _ _ => rfl, fun _ _ _ _ => rfl, fun _ _ _ _ _ => rfl⟩

theorem setMailbox_stay (b : Mailbox) : Keeps (OthersStay h) (setMailbox k b) := Keeps.modify fun _ _ _ => rfl

theorem record_stay (e : Event) : Keeps (OthersStay h) (record e) := Keeps.modify fun _ _ _ => rfl

theorem othersStay_boxes : Boxes h (OthersStay h) := by
  have hr : Ambient h (OthersStay h) := othersStay_ambient
  refine ⟨fun i name => Keeps.read fun s => ?_, fun i k => ?_, fun i k msg len n => ?_, fun i k len n => ?_⟩
  · split
    · exact (setMailbox_stay _).bind fun _ => hr.quiet (finish_noise _)
    · split
      · exact hr.quiet (finish_noise _)
      · refine (setMailbox_stay _).bind fun _ => (Keeps.perform (Op.init _)).bind fun _ =>
          (Keeps.perform (Op.init _)).bind fun _ => ?_
        exact (record_stay _).bind fun _ => hr.quiet (finish_noise _)
  · exact Keeps.read fun _ => (setMailbox_stay _).bind fun _ => hr.quiet (finish_noise _)
  · refine Keeps.read fun s => Keeps.ite Keeps.stop (Keeps.ite (Keeps.ite Keeps.stop ?_) (hr.acting (blockIn_noise _)))
    refine (setMailbox_stay _).bind fun _ => (record_stay _).bind fun _ => hr.quiet ?_
    exact wakeAll_noise.bind fun _ => finish_noise _
  · refine Keeps.read fun s => Keeps.ite (Keeps.ite Keeps.stop ?_) (hr.acting (blockIn_noise _))
    refine (setMailbox_stay _).bind fun _ => (record_stay _).bind fun _ => hr.quiet ?_
    exact wakeAll_noise.bind fun _ => finish_noise _

/-- No hart changes what another hart runs. -/
theorem act_stay (a : Action) : Keeps (OthersStay h) (act h a) := act_keeps othersStay_ambient othersStay_boxes a

end OsLab.Sched
