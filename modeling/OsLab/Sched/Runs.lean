import OsLab.Sched.Channels

/-!
# Runs of the kernel

`Machine` is the kernel with its list pointers, `Step` what one hart does next, and `Reach P` the
states that runs lead to from the state that `main` has set up, when every step meets `P`. One step
lemma (`Sound.step`) carries the discipline of the queues from state to state; what holds in all states
of a run is read off it.

Conditions on a step are of two kinds. `Call.Valid` is what a program has to observe: a barrier, a condition
or a mailbox is used while it is active, and a mailbox is not closed for good while a send or a
receive on it is under way. `KillOk` is about two harts: `do_kill` only marks the tasks of the process
as ended, so a task that the other hart runs goes on running in a slot that counts as free.
-/

namespace OsLab.Sched

open Lib ProgM

/-- The kernel with its list pointers. -/
abbrev Machine := Conf Kernel (Links Node)

/-- Hart `h` takes the step `a`. -/
def Step (h : Hart) (a : Action) (s s' : Machine) : Prop :=
  Enabled s.mem h a ∧ exec pointers (act h a) s = some ((), s')

/-- The state in which `main` starts the first task: what `init_pcb`, `init_locks`, `init_barriers`,
`init_conditions` and `init_mbox` assign, and the zeros of static variables. -/
structure Boot (s : Machine) : Prop where
  status : ∀ i, s.mem.status i = .TASK_EXITED
  current : ∀ h, s.mem.current_running h = none
  pid : s.mem.process_id = 0
  mutex : ∀ k, (s.mem.mlocks k).locked = false
  lockid : s.mem.last_lockid = 0
  barrier : ∀ k, (s.mem.barrier k).active = false
  condition : ∀ k, (s.mem.condition k).active = false
  mailbox : ∀ k, (s.mem.mailbox k).active = false
  log : s.mem.log = []
  /-- `LIST_HEAD`, and the loops that initialise queues. -/
  ring : ∀ q, (∀ i, q ≠ .wait i) → s.dev.Ring (.head q) []
  raw : ∀ i, s.dev.next (.head (.wait i)) = none ∧ s.dev.prev (.head (.wait i)) = none
  null : ∀ i, s.dev.next (.task i) = none

/-- States that runs from the start lead to, every step of which meets `P`. -/
inductive Reach (P : Kernel → Hart → Action → Prop) : Machine → Prop where
  /-- The start. -/
  | boot {s : Machine} (hb : Boot s) : Reach P s
  /-- One more step. -/
  | step {s s' : Machine} {h : Hart} {a : Action} (hr : Reach P s) (hp : P s.mem h a) (hs : Step h a s s') : Reach P s'

/-- The handles of a call may be used. -/
def Call.Valid (s : Kernel) : Call → Prop
  | .do_barrier_wait k => (s.barrier k).active = true
  | .do_condition_wait k _ => (s.condition k).active = true
  | .do_mbox_send k _ _ => (s.mailbox k).active = true
  | .do_mbox_recv k _ => (s.mailbox k).active = true
  | .do_mbox_close k => (s.mailbox k).cite_num - 1 ≤ 0 → ∀ i, s.status i ≠ .TASK_EXITED → (s.resume i).mailbox ≠ some k
  | _ => True

instance (s : Kernel) (c : Call) : Decidable (c.Valid s) := by
  unfold Call.Valid
  split <;> infer_instance

/-- The handles of a step may be used. -/
def Action.Valid (s : Kernel) : Action → Prop
  | .call c => c.Valid s
  | _ => True

instance (s : Kernel) (a : Action) : Decidable (a.Valid s) := by
  unfold Action.Valid
  split <;> infer_instance

/-- No task of a process that is killed runs on another hart. -/
def KillOk (s : Kernel) (h : Hart) (a : Action) : Prop :=
  ∀ pid, a = .call (.do_kill pid) → ∀ h', h' ≠ h → ∀ i, s.current_running h' = some i → (s.pcb i).pid ≠ pid

/-- The process that the step is to kill. -/
def Action.killed : Action → Option Int32
  | .call (.do_kill pid) => some pid
  | _ => none

theorem Action.killed_iff {a : Action} {pid : Int32} : a.killed = some pid ↔ a = .call (.do_kill pid) := by
  unfold Action.killed
  split
  · simp
  · next hne =>
    simp only [reduceCtorEq, false_iff]
    exact hne pid

instance (s : Kernel) (h : Hart) (a : Action) : Decidable (KillOk s h a) :=
  -- by cases on `a.killed`, not by a search through all process ids
  decidable_of_iff (a.killed.all fun pid => ∀ h', h' ≠ h → ∀ i, s.current_running h' = some i → (s.pcb i).pid ≠ pid)
    ((Option.all_eq_true _ _).trans (forall_congr' fun _ => imp_congr Action.killed_iff decide_eq_true_iff))

/-! ### The step lemma -/

variable {c : St} {s s' : Machine} {h : Hart} {a : Action} {i : Slot}

/-- `x` does not come back from the memory `m`. -/
def Hangs (m : Kernel) (x : SchedM Unit) : Prop :=
  ∀ (σ : Type) (H : Handler Op Op.Res σ) (d : σ), exec H x ⟨m, d⟩ = none

theorem handle_syscall_spec (ha : At h i c) (call : Call) (hv : call.Valid c.mem) (hk : KillOk c.mem h (.call call)) :
    Returns listed c (handle_syscall h i call) (fun _ c' => Inv c') ∨ Hangs c.mem (handle_syscall h i call) := by
  cases call with
  | do_scheduler => exact Or.inl (suspend_spec ha rfl)
  | do_sleep t => exact Or.inl (do_sleep_spec ha t)
  | do_exec name =>
    refine Or.inl ((do_exec_spec ha.toInv h name).bind ?_)
    rintro r c' ⟨hc', hcur, -⟩
    exact finish_spec (h := h) ⟨hc', by rw [hcur]; exact ha.here⟩ _
  | do_exit => exact Or.inl (do_exit_spec ha)
  | do_kill pid => exact Or.inl (do_kill_spec ha pid (hk pid rfl))
  | do_waitpid pid => exact Or.inl (do_waitpid_spec ha pid)
  | do_taskset_exec name mask =>
    refine Or.inl ((do_taskset_exec_spec ha.toInv h name mask).bind ?_)
    rintro r c' ⟨hc', hcur⟩
    exact finish_spec (h := h) ⟨hc', by rw [hcur]; exact ha.here⟩ _
  | do_taskset_pid pid mask =>
    refine Or.inl ((do_taskset_pid_spec ha.toInv pid mask).bind ?_)
    rintro r c' ⟨hc', hcur⟩
    exact finish_spec (h := h) ⟨hc', by rw [hcur]; exact ha.here⟩ _
  | do_pthread_create thread => exact Or.inl (do_pthread_create_spec ha thread)
  | do_pthread_join thread => exact Or.inl (do_pthread_join_spec ha thread)
  | do_mutex_lock_init key => exact Or.inl (do_mutex_lock_init_spec ha key)
  | do_mutex_lock_acquire k => exact Or.inl (do_mutex_lock_acquire_spec ha k)
  | do_mutex_lock_release k =>
    refine Or.inl ((do_mutex_lock_release_spec ha.disc ha.waits i k).bind ?_)
    rintro _ c' ⟨hf, hw⟩
    exact finish_spec (ha.frame hf hw) _
  | do_barrier_init key goal => exact Or.inl (do_barrier_init_spec ha key goal)
  | do_barrier_wait k => exact Or.inl (do_barrier_wait_spec ha hv)
  | do_barrier_destroy k => exact Or.inl (do_barrier_destroy_spec ha)
  | do_condition_init key => exact Or.inl (do_condition_init_spec ha key)
  | do_condition_wait k m => exact Or.inl (do_condition_wait_spec ha hv m)
  | do_condition_signal k => exact Or.inl (do_condition_signal_spec ha)
  | do_condition_broadcast k => exact Or.inl (do_condition_broadcast_spec ha)
  | do_condition_destroy k => exact Or.inl (do_condition_destroy_spec ha)
  | do_mbox_open name => exact Or.inl (do_mbox_open_spec ha name)
  | do_mbox_close k => exact Or.inl (do_mbox_close_spec ha hv)
  | do_mbox_send k msg len => exact do_mbox_send_spec ha hv msg len 0
  | do_mbox_recv k len => exact do_mbox_recv_spec ha hv len 0

theorem goOn_spec (ha : At h i c) (msg : ℕ → UInt8) :
    Returns listed c (goOn h i msg (c.mem.resume i)) (fun _ c' => Inv c') ∨
    Hangs c.mem (goOn h i msg (c.mem.resume i)) := by
  have hex : c.mem.status i ≠ .TASK_EXITED := by
    rw [ha.running]
    decide
  have hp := ha.pend i
  cases hr : c.mem.resume i with
  | user => exact Or.inl (Returns.pure ha.toInv)
  | ret v => exact Or.inl (finish_spec ha v)
  | acquire k => exact Or.inl (do_mutex_lock_acquire_spec ha k)
  | send k len n => exact do_mbox_send_spec ha (hp k hex (by rw [hr]; rfl)) msg len n
  | recv k len n => exact do_mbox_recv_spec ha (hp k hex (by rw [hr]; rfl)) len n

/-- A step on a hart that runs no task. -/
def actIdle (h : Hart) : Action → SchedM Unit
  | .timer => do_scheduler h
  | .call (.do_exec name) => do let _ ← do_exec h name
  | .call (.do_taskset_exec name mask) => do let _ ← do_taskset_exec h name mask
  | .call (.do_taskset_pid pid mask) => do let _ ← do_taskset_pid pid mask
  | _ => stop

/-- Every step that comes back ends in order. -/
theorem act_spec (hc : Inv c) (hv : a.Valid c.mem) (hk : KillOk c.mem h a) :
    Returns listed c (act h a) (fun _ c' => Inv c') ∨ Hangs c.mem (act h a) := by
  cases hcur : c.mem.current_running h with
  | some i =>
    have ha : At h i c := ⟨hc, hcur⟩
    have hex : (c.mem.pcb i).status ≠ .TASK_EXITED := by
      have := ha.running
      rw [Kernel.status] at this
      rw [this]
      decide
    cases a with
    | resume msg =>
      refine (goOn_spec ha msg).imp (fun hr => Returns.get_bind ?_) (fun hh σ H d => ?_)
      · simpa only [hcur] using hr
      · simpa only [act, exec_bind, exec_get, Option.bind_some, hcur] using hh σ H d
    | timer =>
      refine Or.inl (Returns.get_bind ?_)
      simpa only [hcur, if_neg hex] using suspend_spec ha rfl
    | call call =>
      refine (handle_syscall_spec ha call hv hk).imp (fun hr => Returns.get_bind ?_) (fun hh σ H d => ?_)
      · simpa only [hcur, if_neg hex] using hr
      · simpa only [act, exec_bind, exec_get, Option.bind_some, hcur, if_neg hex] using hh σ H d
  | none =>
    have hpid0 : ∀ x : SchedM Unit, (Returns listed c x fun _ c' => Inv c') ∨ Hangs c.mem x →
        (∀ (σ : Type) (H : Handler Op Op.Res σ) (d : σ), exec H (act h a) ⟨c.mem, d⟩ = exec H x ⟨c.mem, d⟩) →
        (Returns listed c (act h a) fun _ c' => Inv c') ∨ Hangs c.mem (act h a) := by
      intro x hx he
      refine hx.imp ?_ ?_
      · rintro ⟨r, c', hr, hc'⟩
        exact ⟨r, c', by rw [← hr]; exact he _ _ _, hc'⟩
      · exact fun hh σ H d => by rw [he]; exact hh σ H d
    have hact : ∀ (σ : Type) (H : Handler Op Op.Res σ) (d : σ),
        exec H (act h a) ⟨c.mem, d⟩ = exec H (actIdle h a) ⟨c.mem, d⟩ := by
      intro σ H d
      rw [act, exec_bind, exec_get, Option.bind_some]
      simp only [hcur]
      cases a with
      | timer => rfl
      | resume msg => rfl
      | call call => cases call <;> rfl
    refine hpid0 _ ?_ hact
    unfold actIdle
    split
    · exact Or.inl (do_scheduler_spec (hc.mid h))
    · refine Or.inl ((do_exec_spec hc h _).bind ?_)
      rintro r c' ⟨hc', -⟩
      exact Returns.pure hc'
    · refine Or.inl ((do_taskset_exec_spec hc h _ _).bind ?_)
      rintro r c' ⟨hc', -⟩
      exact Returns.pure hc'
    · refine Or.inl ((do_taskset_pid_spec hc _ _).bind ?_)
      rintro r c' ⟨hc', -⟩
      exact Returns.pure hc'
    · exact Or.inr fun σ H d => rfl

/-- The pointers hold queues that are in order. -/
def Sound (s : Machine) : Prop := ∃ Q : Queues, Repr Q s.dev ∧ Inv ⟨s.mem, Q⟩

theorem Boot.sound (hb : Boot s) : Sound s := by
  refine ⟨⟨fun _ => [], fun _ => False⟩,
    ⟨fun q hup => ?_, fun _ _ => rfl, fun i _ => hb.raw i, ?_, fun i _ => hb.null i⟩, ⟨?_, ?_, ?_, ?_, ?_⟩⟩
  · exact hb.ring q fun i e => hup i e
  · intro i q q' hi
    cases hi
  · refine ⟨fun _ => List.nodup_nil, ?_, ?_, ?_, ?_, ?_⟩
    · intro i q q' hi
      cases hi
    · intro i q hi
      cases hi
    · intro i hi
      rw [hb.status i] at hi
      rcases hi with e | e <;> cases e
    · intro i hi
      rw [hb.status i] at hi
      cases hi
    · intro h h' i hi
      rw [hb.current h] at hi
      cases hi
  · exact fun i hi => absurd (hb.status i) hi
  · intro q i hi
    cases hi
  · exact fun i k hi => absurd (hb.status i) hi
  · intro h i hi
    rw [hb.current h] at hi
    cases hi

/-- What a step does to the pointers it does to the lists that they hold. -/
theorem Step.listed {Q : Queues} (hst : Step h a s s')
    (hrep : Repr Q s.dev) (hinv : Inv ⟨s.mem, Q⟩) (hv : a.Valid s.mem)
    (hk : KillOk s.mem h a) : ∃ Q',
    Repr Q' s'.dev ∧ Inv ⟨s'.mem, Q'⟩ ∧ exec listed (act h a) ⟨s.mem, Q⟩ = some ((), ⟨s'.mem, Q'⟩) := by
  rcases act_spec hinv hv hk with ⟨⟨⟩, ⟨m', Q'⟩, he, hinv'⟩ | hh
  · obtain ⟨L', he', hrep'⟩ := exec_pointers (act h a) hrep he
    obtain ⟨-, rfl⟩ := Prod.mk.inj (Option.some.inj (hst.2.symm.trans he'))
    exact ⟨Q', hrep', hinv', he⟩
  · have := hst.2
    rw [hh _ pointers s.dev] at this
    cases this

/-- One step of the machine. -/
theorem Sound.step (hs : Sound s) (hst : Step h a s s') (hv : a.Valid s.mem) (hk : KillOk s.mem h a) : Sound s' := by
  obtain ⟨Q, hrep, hinv⟩ := hs
  obtain ⟨Q', hrep', hinv', -⟩ := hst.listed hrep hinv hv hk
  exact ⟨Q', hrep', hinv'⟩

/-- Runs whose steps meet the conditions stay in order. -/
theorem Reach.sound {P : Kernel → Hart → Action → Prop}
    (hP : ∀ m h a, P m h a → a.Valid m ∧ KillOk m h a) (hr : Reach P s) :
    Sound s := by
  induction hr with
  | boot hb => exact hb.sound
  | step _ hp hs ih => exact ih.step hs (hP _ _ _ hp).1 (hP _ _ _ hp).2

/-! ### One hart -/

/-- Only hart `h₀` runs, and uses its handles while they are valid. -/
def OneHart (h₀ : Hart) (m : Kernel) (h : Hart) (a : Action) : Prop := h = h₀ ∧ a.Valid m

instance (h₀ : Hart) (m : Kernel) (h : Hart) (a : Action) :
    Decidable (OneHart h₀ m h a) := inferInstanceAs (Decidable (_ ∧ _))

/-- The harts that have not been started stay on their `pid0` PCB. -/
theorem Reach.pid0 {h₀ : Hart} (hr : Reach (OneHart h₀) s) (h : Hart) (hne : h ≠ h₀) :
    s.mem.current_running h = none := by
  induction hr with
  | boot hb => exact hb.current h
  | step hr hp hs ih =>
    obtain ⟨rfl, -⟩ := hp
    have := act_stay _ _ _ pointers _ () _ hs.2 h hne
    rw [this]
    exact ih

theorem Reach.soundOne {h₀ : Hart} (hr : Reach (OneHart h₀) s) : Sound s := by
  induction hr with
  | boot hb => exact hb.sound
  | step hr hp hs ih =>
    refine ih.step hs hp.2 fun pid _ h' hne i hi => ?_
    obtain ⟨rfl, -⟩ := hp
    rw [hr.pid0 h' hne] at hi
    cases hi

/-! ### Runs of given steps -/

instance (m : Kernel) (h : Hart) : Decidable (InKernel m h) := inferInstanceAs (Decidable (∃ _, _))

instance (m : Kernel) (h : Hart) (a : Action) : Decidable (Enabled m h a) :=
  match a with
  | .timer => inferInstanceAs (Decidable (_ ∧ _))
  | .call _ => inferInstanceAs (Decidable (_ ∧ _))
  | .resume _ => inferInstanceAs (Decidable (_ ∧ _))

/-- The state after the given steps, if they can all be taken. -/
def steps : List (Hart × Action) → Machine → Option Machine
  | [], s => some s
  | (h, a) :: l, s => if Enabled s.mem h a then (exec pointers (act h a) s).bind fun r => steps l r.2 else none

theorem Reach.steps {P : Kernel → Hart → Action → Prop} (hr : Reach P s) (l : List (Hart × Action))
    (hP : ∀ m, ∀ x ∈ l, P m x.1 x.2) (he : steps l s = some s') : Reach P s' := by
  induction l generalizing s with
  | nil =>
    obtain rfl := Option.some.inj he
    exact hr
  | cons x l ih =>
    obtain ⟨h, a⟩ := x
    rw [Sched.steps, Option.ite_none_right_eq_some, Option.bind_eq_some_iff] at he
    obtain ⟨hen, ⟨⟨⟩, s₁⟩, hex, hl⟩ := he
    have hr₁ := hr.step (hP s.mem (h, a) (List.mem_cons_self ..)) ⟨hen, hex⟩
    exact ih hr₁ (fun m x hx => hP m x (List.mem_cons_of_mem _ hx)) hl

/-- The state after the given steps, if they can all be taken and meet `p`. -/
def stepsIf (p : Kernel → Hart → Action → Bool) : List (Hart × Action) → Machine → Option Machine
  | [], s => some s
  | (h, a) :: l, s => if Enabled s.mem h a ∧
      p s.mem h a then (exec pointers (act h a) s).bind fun r => stepsIf p l r.2 else none

theorem Reach.stepsIf {P : Kernel → Hart → Action → Prop}
    {p : Kernel → Hart → Action → Bool} (hr : Reach P s) {l : List (Hart × Action)}
    (hP : ∀ m h a, p m h a = true → P m h a) (he : stepsIf p l s = some s') : Reach P s' := by
  induction l generalizing s with
  | nil =>
    obtain rfl := Option.some.inj he
    exact hr
  | cons x l ih =>
    obtain ⟨h, a⟩ := x
    rw [Sched.stepsIf, Option.ite_none_right_eq_some, Option.bind_eq_some_iff] at he
    obtain ⟨⟨hen, hp⟩, ⟨⟨⟩, s₁⟩, hex, hl⟩ := he
    exact ih (hr.step (hP _ _ _ hp) ⟨hen, hex⟩) hl

/-- The kernel as it is started, with one program. -/
def Machine.start : Machine where
  mem :=
    { pcb := fun _ => ⟨0, .TASK_EXITED, 0, 0, 0, 0⟩, resume := fun _ => .user,
      a0 := fun _ => 0, current_running := fun _ => none,
      process_id := 0, tasks := [⟨[], by decide⟩], mlocks := fun _ => ⟨false, 0, 0⟩, last_lockid := 0,
      barrier := fun _ => ⟨0, 0, 0, false⟩, condition := fun _ => ⟨0, false⟩,
      mailbox := fun _ => ⟨false, false, ⟨[], by decide⟩, fun _ => 0, 0, 0⟩, clock := fun _ => 0, log := [] }
  dev :=
    { next := fun n => match n with
        | .head (.wait _) => none
        | .head q => some (.head q)
        | .task _ => none
      prev := fun n => match n with
        | .head (.wait _) => none
        | .head q => some (.head q)
        | .task _ => none }

theorem boot_start : Boot Machine.start := by
  refine ⟨fun _ => rfl, fun _ => rfl, rfl, fun _ => rfl, rfl, fun _ => rfl, fun _ => rfl, fun _ => rfl, rfl, ?_,
    fun _ => ⟨rfl, rfl⟩, fun _ => rfl⟩
  intro q hq
  refine ⟨List.nodup_singleton _, List.isChain_pair.mpr ?_⟩
  cases q with
  | wait i => exact absurd rfl (hq i)
  | ready_queue => exact ⟨rfl, rfl⟩
  | sleep_queue => exact ⟨rfl, rfl⟩
  | mutex k => exact ⟨rfl, rfl⟩
  | barrier k => exact ⟨rfl, rfl⟩
  | condition k => exact ⟨rfl, rfl⟩
  | full k => exact ⟨rfl, rfl⟩
  | empty k => exact ⟨rfl, rfl⟩

/-- `main` starts two processes that may run on both harts, and each hart switches to one of them. -/
def twoTasks : List (Hart × Action) :=
  [(0, .call (.do_taskset_exec ⟨[], length_nil_lt⟩ 3)),
    (0, .call (.do_taskset_exec ⟨[], length_nil_lt⟩ 3)), (0, .timer), (1, .timer)]

end OsLab.Sched
