import OsLab.Sched.Ready
import OsLab.Sched.Harts

/-!
# Dispatching

`do_scheduler` puts the running task back, walks `ready_queue` from its head, and takes out the first task
that may run on the hart. Since the queue is in the order in which its tasks came (`Watch.Ok`), no task is
overtaken by a later one that it could run instead of. A system call moves the hart to another task only by
calling `do_scheduler` at its end (`Schedules`), so this holds of whole runs of two harts.
-/

namespace OsLab.Sched

open Lib ProgM

/-- The kernel and the watched queue. -/
abbrev Seen := Conf Kernel Watch

variable {h : Hart} {c d e f : Seen} {i j : Slot} {q : Queue} {k : Handle} {l l₁ l₂ : List Slot}

/-- The task that `get_next_running` puts back. -/
def preempted (h : Hart) (m : Kernel) : List Slot :=
  match m.current_running h with
  | some i => if (m.pcb i).status = .TASK_RUNNING then [i] else []
  | none => []

/-- Task `i` may run on hart `h`. -/
def May (m : Kernel) (h : Hart) (i : Slot) : Prop := allows (m.pcb i).cpu_mask h = true

/-- Hart `h` has looked through the tasks `q` and left `f`. -/
inductive Dispatch (h : Hart) (q : List Slot) (f : Seen) : Prop where
  /-- It has switched to a task, the first that may run on it, and the one that has waited longest. -/
  | task (a b : List Slot) (u : Slot) (split : q = a ++ u :: b)
      (passed : ∀ t ∈ a, ¬ May f.mem h t) (may : May f.mem h u)
      (current : f.mem.current_running h = some u) (rest : f.dev.ready = a ++ b)
      (longest : ∀ t ∈ q, May f.mem h t → f.dev.since u ≤ f.dev.since t)
  /-- No task may run on it. -/
  | idle (passed : ∀ t ∈ q, ¬ May f.mem h t) (current : f.mem.current_running h = none) (rest : f.dev.ready = q)

/-! ### The scheduler -/

/-- Looking at a list pointer. -/
theorem nextNode_seen (n : Node) :
    Ensures watched c (nextNode q n) fun m c' => c' = c ∧ c.dev.links.next n = some m := by
  refine Ensures.perform fun m w hw => ?_
  obtain ⟨L, he, -, rfl⟩ := watched_eq_some.mp hw
  obtain ⟨m', hm, he⟩ := Option.map_eq_some_iff.mp he
  obtain ⟨rfl, rfl⟩ := Prod.mk.inj he
  exact ⟨rfl, hm⟩

theorem requeue_seen : Ensures watched c (requeue h) fun _ c' =>
    c'.mem.current_running = c.mem.current_running ∧ (∀ t, (c'.mem.pcb t).cpu_mask = (c.mem.pcb t).cpu_mask) ∧
      c'.dev.ready = c.dev.ready ++ preempted h c.mem := by
  refine Ensures.get_bind ?_
  cases hcur : c.mem.current_running h with
  | none =>
    refine Ensures.pure ⟨rfl, fun _ => rfl, ?_⟩
    rw [preempted, hcur, List.append_nil]
  | some i =>
    refine Ensures.ite (fun hr => ?_) fun hr => ?_
    · refine Ensures.modify_bind (Ensures.perform fun _ w hw => ⟨rfl, fun t => ?_, ?_⟩)
      · by_cases ht : t = i
        · subst ht
          simp
        · simp [ht]
      · obtain ⟨L, -, -, rfl⟩ := watched_eq_some.mp hw
        rw [preempted, hcur]
        simp only [if_pos hr]
        rfl
    · refine Ensures.pure ⟨rfl, fun _ => rfl, ?_⟩
      rw [preempted, hcur]
      simp only [if_neg hr, List.append_nil]

/-- The walk, when the tasks `l₁` have been passed. -/
theorem pickLoop_seen (fuel : ℕ) (hok : c.dev.Ok) (hl : c.dev.ready = l₁ ++ l₂) (hpassed : ∀ t ∈ l₁, ¬ May c.mem h t) :
    Ensures watched c (pickLoop h fuel (first .ready_queue l₂)) fun b f =>
      (∀ t, (f.mem.pcb t).cpu_mask = (c.mem.pcb t).cpu_mask) ∧
        ((b = true ∧ ∃ a u l, c.dev.ready = a ++ u :: l ∧ (∀ t ∈ a, ¬ May c.mem h t) ∧ May c.mem h u ∧
          f.mem.current_running h = some u ∧ f.dev.ready = a ++ l ∧ f.dev.since = c.dev.since) ∨
        (b = false ∧ f = c ∧ ∀ t ∈ c.dev.ready, ¬ May c.mem h t)) := by
  induction fuel generalizing l₁ l₂ with
  | zero => exact Ensures.stop
  | succ fuel ih =>
    cases l₂ with
    | nil =>
      rw [List.append_nil] at hl
      refine Ensures.pure ⟨fun _ => rfl, .inr ⟨rfl, rfl, ?_⟩⟩
      rwa [hl]
    | cons i l₂ =>
      refine Ensures.get_bind (Ensures.ite (fun hmay => ?_) fun hmay => ?_)
      · have herase : c.dev.ready.erase i = l₁ ++ l₂ := by
          have hnd := hok.ring.nodup
          rw [hl, List.nodup_middle, List.nodup_cons] at hnd
          rw [hl, List.erase_append_right _ fun hi => hnd.1 (List.mem_append_left _ hi), List.erase_cons_head]
        refine Ensures.modify_bind (Ensures.bind (Ensures.perform (p := fun _ c' =>
          c'.mem = { c.mem with current_running := Function.update c.mem.current_running h (some i) } ∧
            c'.dev.ready = l₁ ++ l₂ ∧ c'.dev.since = c.dev.since) fun _ w hw => ?_) ?_)
        · obtain ⟨L, -, -, rfl⟩ := watched_eq_some.mp hw
          exact ⟨rfl, herase, rfl⟩
        · rintro _ c' ⟨hm, hready, hsince⟩
          refine Ensures.modify_bind
            (Ensures.pure ⟨fun t => ?_, .inl ⟨rfl, l₁, i, l₂, hl, hpassed, hmay, ?_, hready, hsince⟩⟩)
          · by_cases ht : t = i
            · subst ht
              simp [hm]
            · simp [hm, ht]
          · simp [hm]
      · refine Ensures.bind (nextNode_seen _) ?_
        rintro n d ⟨rfl, hn⟩
        have hr := hok.ring.ring
        rw [hl] at hr
        obtain rfl := Option.some.inj (hn.symm.trans (next_task hr))
        have hnext : d.dev.ready = l₁ ++ [i] ++ l₂ := by rw [hl, List.append_assoc, List.singleton_append]
        refine ih hnext fun t ht => ?_
        rcases List.mem_append.mp ht with ht | ht
        · exact hpassed t ht
        · obtain rfl := List.mem_singleton.mp ht
          exact hmay

theorem get_next_running_seen (hok : e.dev.Ok) : Ensures watched e (get_next_running h) fun b f =>
    (∀ t, (f.mem.pcb t).cpu_mask = (e.mem.pcb t).cpu_mask) ∧
      (if b then Dispatch h (e.dev.ready ++ preempted h e.mem) f
        else f.dev.ready = e.dev.ready ++ preempted h e.mem ∧ ∀ t ∈ f.dev.ready, ¬ May f.mem h t) := by
  refine Ensures.bind (requeue_seen.and fun _ _ hx => hok.exec hx) ?_
  rintro _ e₁ ⟨⟨-, hmask, hready⟩, hok'⟩
  refine Ensures.bind (nextNode_seen _) ?_
  rintro n e' ⟨rfl, hn⟩
  have hfirst : n = first .ready_queue e'.dev.ready := by
    rw [Repr.first_eq]
    exact Option.some.inj (hn.symm.trans hok'.ring.ring.next_head)
  subst hfirst
  have hnone : e'.dev.ready = [] ++ e'.dev.ready := rfl
  refine (pickLoop_seen _ hok' hnone fun t ht => absurd ht List.not_mem_nil).mono ?_
  rintro b f ⟨hm, ⟨rfl, a, u, l, hq, hpassed, hmay, hcur, hrest, hsince⟩ | ⟨rfl, rfl, hpassed⟩⟩
  · have hsame : ∀ t, May f.mem h t ↔ May e'.mem h t := fun t => by rw [May, May, hm t]
    refine ⟨fun t => (hm t).trans (hmask t), ?_⟩
    rw [if_pos rfl, ← hready]
    refine .task a l u hq (fun t ht => mt (hsame t).mp (hpassed t ht))
      ((hsame u).mpr hmay) hcur hrest fun t ht hmay => ?_
    -- the tasks before `u` may not run, and those after it came later
    have horder := hok'.order
    rw [hq] at ht horder
    rw [hsince]
    rcases List.mem_append.mp ht with ht | ht
    · exact absurd ((hsame t).mp hmay) (hpassed t ht)
    · rcases List.mem_cons.mp ht with rfl | ht
      · exact le_rfl
      · exact ((List.pairwise_cons.mp (List.pairwise_append.mp horder).2.1).1 t ht).le
  · exact ⟨fun t => hmask t, by rw [if_neg Bool.false_ne_true]; exact ⟨hready, hpassed⟩⟩

/-- What `do_scheduler` does after `check_sleeping`. -/
theorem do_scheduler_seen (hok : d.dev.Ok) (hx : exec watched (do_scheduler h) d = some ((), f)) :
    ∃ e, exec watched check_sleeping d = some ((), e) ∧ (∀ t, (f.mem.pcb t).cpu_mask = (e.mem.pcb t).cpu_mask) ∧
      Dispatch h (e.dev.ready ++ preempted h e.mem) f := by
  rw [do_scheduler, exec_bind, Option.bind_eq_some_iff] at hx
  obtain ⟨⟨_, e⟩, he, hx⟩ := hx
  refine ⟨e, he, ?_⟩
  have hens : Ensures watched e (do if ← get_next_running h then pure () else setCurrent h none) fun _ f =>
      (∀ t, (f.mem.pcb t).cpu_mask = (e.mem.pcb t).cpu_mask) ∧ Dispatch h (e.dev.ready ++ preempted h e.mem) f := by
    refine Ensures.bind (get_next_running_seen (hok.exec he)) ?_
    rintro b g ⟨hm, hg⟩
    cases b with
    | true =>
      rw [if_pos rfl] at hg ⊢
      exact Ensures.pure ⟨hm, hg⟩
    | false =>
      rw [if_neg Bool.false_ne_true] at hg ⊢
      obtain ⟨hready, hpassed⟩ := hg
      refine Ensures.modify ⟨hm, .idle ?_ (Function.update_self ..) hready⟩
      rw [← hready]
      exact hpassed
  exact hens () f hx

/-! ### Who calls the scheduler -/

/-- The running tasks stay. -/
def SameRunning (m m' : Kernel) : Prop := m'.current_running = m.current_running

instance : Std.Refl SameRunning := ⟨fun _ => rfl⟩

instance : IsTrans Kernel SameRunning := ⟨fun _ _ _ h₁ h₂ => h₂.trans h₁⟩

/-- `x` changes the running tasks only by calling `do_scheduler` on hart `h` at its end. -/
def Schedules (h : Hart) (x : SchedM Unit) : Prop :=
  ∀ (σ : Type) (H : Handler Op Op.Res σ) (c c' : Conf Kernel σ), exec H x c = some ((), c') → SameRunning c.mem c'.mem ∨
    ∃ (y : SchedM Unit) (d : Conf Kernel σ), exec H y c = some ((), d) ∧ SameRunning c.mem d.mem ∧
      exec H (do_scheduler h) d = some ((), c')

namespace Schedules

variable {α : Type} {x y : SchedM Unit}

theorem of_keeps (hx : Keeps SameRunning x) : Schedules h x := fun σ H c c' he => .inl (hx c.mem σ H c.dev () c' he)

theorem scheduler : Schedules h (do_scheduler h) := fun _ _ c _ he => .inr ⟨pure (), c, rfl, rfl, he⟩

theorem bind {x : SchedM α} {f : α → SchedM Unit} (hx : Keeps SameRunning x) (hf : ∀ a, Schedules h (f a)) :
    Schedules h (x >>= f) := by
  intro σ H c c' he
  rw [exec_bind, Option.bind_eq_some_iff] at he
  obtain ⟨⟨a, d⟩, hxd, he⟩ := he
  have hd : SameRunning c.mem d.mem := hx c.mem σ H c.dev a d hxd
  rcases hf a σ H d c' he with hs | ⟨y, e, hy, hs, hsch⟩
  · exact .inl (hs.trans hd)
  · refine .inr ⟨x >>= fun _ => y, e, ?_, hs.trans hd, hsch⟩
    rw [exec_bind, hxd, Option.bind_some]
    exact hy

theorem read {f : Kernel → SchedM Unit} (hf : ∀ m, Schedules h (f m)) : Schedules h (get >>= f) :=
  fun σ H c c' he => hf c.mem σ H c c' he

theorem ite {p : Prop} [Decidable p] (hx : Schedules h x) (hy : Schedules h y) : Schedules h (if p then x else y) := by
  split
  · exact hx
  · exact hy

end Schedules

/-- What is noise to both harts moves no hart. -/
theorem still {α : Type} {x : SchedM α} (hx : ∀ h, Keeps (OthersStay h) x) : Keeps SameRunning x := by
  intro m σ H d a c he
  funext h
  -- the other hart's noise leaves this one alone
  by_cases hh : h = 0
  · exact hx 1 m σ H d a c he h (by rw [hh]; decide)
  · exact hx 0 m σ H d a c he h hh

theorem still_noise {α : Type} {x : SchedM α} {o : Option Slot} (hx : ∀ h, Keeps (Noise h o) x) : Keeps SameRunning x :=
  still fun h => (hx h).mono fun _ _ n => n.others

theorem check_sleeping_still : Keeps SameRunning check_sleeping := still_noise (o := none) fun _ => check_sleeping_noise

theorem finish_still (v : ℤ) : Keeps SameRunning (finish i v) := still_noise (o := none) fun _ => finish_noise v

theorem wakeAll_still : Keeps SameRunning (wakeAll q) := still_noise (o := none) fun _ => wakeAll_noise

theorem do_exec_still (name : Name) : Keeps SameRunning (do_exec h name) := by
  refine Keeps.read fun s => ?_
  split
  · exact Keeps.pure _
  · split
    · exact Keeps.pure _
    · refine Keeps.bind (Keeps.modify fun _ => rfl) fun _ => Keeps.bind (Keeps.modify fun _ => rfl) fun _ => ?_
      refine (Keeps.perform (Op.init _)).bind fun _ => (Keeps.perform (Op.processPages _ _ _)).bind fun _ => ?_
      refine Keeps.bind (Keeps.modify fun _ => rfl) fun _ => Keeps.bind ?_ fun _ => Keeps.pure _
      exact still_noise (o := none) fun _ => add_readyqueue_noise

theorem do_taskset_exec_still (name : Name) (mask : UInt64) : Keeps SameRunning (do_taskset_exec h name mask) := by
  refine (do_exec_still name).bind fun pid => Keeps.ite (Keeps.pure _) (Keeps.read fun s => ?_)
  split
  · exact Keeps.stop
  · exact Keeps.bind (Keeps.modify fun _ => rfl) fun _ => Keeps.pure _

namespace Schedules

theorem finish (v : ℤ) : Schedules h (finish i v) := of_keeps (finish_still v)

theorem suspend (r : Resume) : Schedules h (suspend h i r) := bind (Keeps.modify fun _ => rfl) fun _ => scheduler

theorem blockIn (r : Resume) : Schedules h (blockIn h i q r) :=
  bind (Keeps.modify fun _ => rfl) fun _ => bind (still_noise (o := none) fun _ => do_block_noise) fun _ => scheduler

theorem do_exit : Schedules h (do_exit h i) := by
  refine bind wakeAll_still fun _ => read fun s => bind (still fun h => othersStay_ambient.releaseLoop _ _) fun _ => ?_
  refine bind Ambient.releasePages fun _ => bind (Keeps.modify fun _ => rfl) fun _ => ?_
  exact bind (Keeps.modify fun _ => rfl) fun _ => scheduler

theorem killLoop (pid : Int32) (fuel : ℕ) : Schedules h (killLoop h i pid fuel) := by
  induction fuel with
  | zero => exact of_keeps Keeps.stop
  | succ fuel ih =>
    refine read fun s => ?_
    split
    · exact finish _
    · exact ite do_exit (bind (still fun h => othersStay_ambient.killPcb _) fun _ => ih)

theorem do_mutex_lock_acquire : Schedules h (do_mutex_lock_acquire h i k) := by
  refine read fun _ => ite (blockIn _) ?_
  exact bind (Keeps.modify fun _ => rfl) fun _ => bind (Keeps.modify fun _ => rfl) fun _ => finish _

theorem do_mbox_send (msg : ℕ → UInt8) (len n : ℤ) : Schedules h (do_mbox_send h i k msg len n) := by
  refine read fun _ => ite (of_keeps Keeps.stop) (ite (ite (of_keeps Keeps.stop) ?_) (blockIn _))
  exact bind (Keeps.modify fun _ => rfl) fun _ =>
    bind (Keeps.modify fun _ => rfl) fun _ => bind wakeAll_still fun _ => finish _

theorem do_mbox_recv (len n : ℤ) : Schedules h (do_mbox_recv h i k len n) := by
  refine read fun _ => ite (ite (of_keeps Keeps.stop) ?_) (blockIn _)
  exact bind (Keeps.modify fun _ => rfl) fun _ =>
    bind (Keeps.modify fun _ => rfl) fun _ => bind wakeAll_still fun _ => finish _

theorem handle_syscall (call : Call) : Schedules h (handle_syscall h i call) := by
  cases call with
  | do_scheduler => exact suspend _
  | do_sleep t =>
    exact bind (still_noise (o := none) fun _ => get_timer_noise) fun _ =>
      bind (Keeps.modify fun _ => rfl) fun _ => blockIn _
  | do_exec name => exact bind (do_exec_still name) fun _ => finish _
  | do_exit => exact do_exit
  | do_kill pid => exact killLoop pid _
  | do_waitpid pid =>
    refine read fun s => ?_
    split
    · exact finish _
    · exact blockIn _
  | do_taskset_exec name mask => exact bind (do_taskset_exec_still name mask) fun _ => finish _
  | do_taskset_pid pid mask =>
      exact bind (still_noise (o := none) fun _ => do_taskset_pid_noise pid mask) fun _ => finish _
  | do_pthread_create thread => exact of_keeps (still fun h => othersStay_ambient.do_pthread_create thread)
  | do_pthread_join thread =>
    refine read fun s => ?_
    split
    · exact finish _
    · exact blockIn _
  | do_mutex_lock_init key => exact of_keeps (still_noise (o := none) fun _ => do_mutex_lock_init_noise key)
  | do_mutex_lock_acquire k => exact do_mutex_lock_acquire
  | do_mutex_lock_release k => exact bind (still fun h => othersStay_ambient.do_mutex_lock_release) fun _ => finish _
  | do_barrier_init key goal => exact of_keeps (still_noise (o := none) fun _ => do_barrier_init_noise key goal)
  | do_barrier_wait k =>
    refine read fun _ => bind (Keeps.modify fun _ => rfl) fun _ => ite ?_ (blockIn _)
    exact bind wakeAll_still fun _ => bind (Keeps.modify fun _ => rfl) fun _ => finish _
  | do_barrier_destroy k => exact of_keeps (still_noise (o := none) fun _ => do_barrier_destroy_noise)
  | do_condition_init key => exact of_keeps (still_noise (o := none) fun _ => do_condition_init_noise key)
  | do_condition_wait k m =>
    refine bind (Keeps.modify fun _ => rfl) fun _ => bind (still_noise (o := none) fun _ => do_block_noise) fun _ => ?_
    exact bind (still fun h => othersStay_ambient.do_mutex_lock_release) fun _ => scheduler
  | do_condition_signal k => exact of_keeps (still_noise (o := none) fun _ => do_condition_signal_noise)
  | do_condition_broadcast k => exact of_keeps (still_noise (o := none) fun _ => do_condition_broadcast_noise)
  | do_condition_destroy k => exact of_keeps (still_noise (o := none) fun _ => do_condition_destroy_noise)
  | do_mbox_open name => exact of_keeps (still fun h => othersStay_boxes.open' i name)
  | do_mbox_close k => exact of_keeps (still fun h => othersStay_boxes.close i k)
  | do_mbox_send k msg len => exact do_mbox_send msg len 0
  | do_mbox_recv k len => exact do_mbox_recv len 0

/-- A hart moves to another task only through `do_scheduler`. -/
theorem act (a : Action) : Schedules h (act h a) := by
  refine read fun m => ?_
  split
  · next msg _ =>
    cases m.resume _ with
    | user => exact of_keeps (Keeps.pure _)
    | ret v => exact finish v
    | acquire k => exact do_mutex_lock_acquire
    | send k len n => exact do_mbox_send msg len n
    | recv k len n => exact do_mbox_recv len n
  · exact ite scheduler (suspend _)
  · exact ite scheduler (handle_syscall _)
  · exact scheduler
  · exact of_keeps ((do_exec_still _).bind fun _ => Keeps.pure _)
  · exact of_keeps ((do_taskset_exec_still _ _).bind fun _ => Keeps.pure _)
  · exact of_keeps (Keeps.bind (still_noise (o := none) fun _ => do_taskset_pid_noise _ _) fun _ => Keeps.pure _)
  · exact of_keeps Keeps.stop

end Schedules

/-! ### Runs -/

/-- States that lead from `c₀` while `ready_queue` stays a list, whatever the order of the two harts. -/
inductive SeenRun (c₀ : Seen) : Seen → Prop where
  | start : SeenRun c₀ c₀
  | step {c d : Seen} {h : Hart} {a : Action} (hr : SeenRun c₀ c)
      (hs : exec watched (act h a) c = some ((), d)) : SeenRun c₀ d

theorem SeenRun.ok {c₀ : Seen} (hok : c₀.dev.Ok) (hr : SeenRun c₀ c) : c.dev.Ok := by
  induction hr with
  | start => exact hok
  | step _ hs ih => exact ih.exec hs

/-- Before the first task has been put into a queue. -/
def Watch.start (L : Links Node) : Watch := ⟨L, [], fun _ => 0, 0⟩

/-- The queues of `s` are in order, and `w` watches them. -/
def Watches (s : Machine) (w : Watch) : Prop :=
  ∃ Q : Queues, w.links = s.dev ∧ Repr Q s.dev ∧ Inv ⟨s.mem, Q⟩ ∧ w.ready = Q .ready_queue

variable {s s' : Machine} {a : Action} {w : Watch}

theorem Watches.boot (hb : Boot s) : Watches s (.start s.dev) := by
  obtain ⟨Q, hrep, hinv⟩ := hb.sound
  exact ⟨Q, rfl, hrep, hinv, hrep.eq_of_ring (hb.ring .ready_queue nofun) nofun⟩

/-- What is watched is the list that the pointers hold. -/
theorem Watches.ready_eq (hw : Watches s w) (hl : s.dev.Ring (.head .ready_queue) (l.map .task)) : w.ready = l := by
  obtain ⟨Q, -, hrep, -, hready⟩ := hw
  rw [hready]
  exact (hrep.eq_of_ring hl nofun).symm

theorem Watches.step (hw : Watches s w) (hp : NoRemoteKill s.mem h a) (hs : Step h a s s') :
    ∃ w', exec watched (act h a) ⟨s.mem, w⟩ = some ((), ⟨s'.mem, w'⟩) ∧ Watches s' w' := by
  obtain ⟨Q, hlinks, hrep, hinv, hready⟩ := hw
  obtain ⟨Q', hrep', hinv', he⟩ := hs.listed hrep hinv hp.1 hp.2
  obtain ⟨w', hex, -, hready'⟩ := listed_watched (hlinks ▸ hrep) hready he
  have hpe := exec_watched hex
  rw [hlinks] at hpe
  have hlinks' : s' = ⟨s'.mem, w'.links⟩ := (Prod.mk.inj (Option.some.inj (hs.2.symm.trans hpe))).2
  exact ⟨w', hex, Q', (congrArg Conf.dev hlinks').symm, hrep', hinv', hready'⟩

/-- The disciplined runs of two harts can be watched from the start. -/
theorem Reach.seen (hr : Reach NoRemoteKill s) : ∃ s₀ : Machine, Boot s₀ ∧ (Watch.start s₀.dev).Ok ∧
    ∃ w, Watches s w ∧ SeenRun ⟨s₀.mem, .start s₀.dev⟩ ⟨s.mem, w⟩ := by
  induction hr with
  | @boot s₀ hb =>
    obtain ⟨Q, -, hrep, -, hready⟩ := Watches.boot hb
    refine ⟨s₀, hb, ⟨?_, List.Pairwise.nil, fun i hi => absurd hi List.not_mem_nil⟩,
      .start s₀.dev, Watches.boot hb, .start⟩
    have hring := hrep.readyRing
    rwa [← hready] at hring
  | step hr hp hs ih =>
    obtain ⟨s₀, hb, hok, w, hw, hrun⟩ := ih
    obtain ⟨w', hex, hw'⟩ := hw.step hp hs
    exact ⟨s₀, hb, hok, w', hw', hrun.step hex⟩

/-- Wherever `do_scheduler` is called in a run, the hart takes the first task that may run on it, which is the one that
has waited longest, and goes to its `pid0` PCB only if there is none. A hart moves to another task in no other way. -/
theorem dispatch_fair {c₀ : Seen} (hok : c₀.dev.Ok) (hr : SeenRun c₀ c) :
    (c.dev.ready.Pairwise fun t u => c.dev.since t < c.dev.since u) ∧
    (∀ (h : Hart) (x : SchedM Unit) (d f : Seen),
      exec watched x c = some ((), d) → exec watched (do_scheduler h) d = some ((), f) →
      ∃ e, exec watched check_sleeping d = some ((), e) ∧ SameRunning d.mem e.mem ∧
        (∀ t, (f.mem.pcb t).cpu_mask = (e.mem.pcb t).cpu_mask) ∧ Dispatch h (e.dev.ready ++ preempted h e.mem) f) ∧
    (∀ (h : Hart) (a : Action) (f : Seen), exec watched (act h a) c = some ((), f) → OthersStay h c.mem f.mem ∧
      (SameRunning c.mem f.mem ∨ ∃ (x : SchedM Unit) (d : Seen),
        exec watched x c = some ((), d) ∧ SameRunning c.mem d.mem ∧
        exec watched (do_scheduler h) d = some ((), f))) := by
  have hokc := hr.ok hok
  refine ⟨hokc.order, fun h x d f hx hf => ?_, fun h a f hf => ⟨act_stay a c.mem Watch watched c.dev () f hf, ?_⟩⟩
  · obtain ⟨e, he, hmask, hdisp⟩ := do_scheduler_seen (hokc.exec hx) hf
    exact ⟨e, he, check_sleeping_still d.mem Watch watched d.dev () e he, hmask, hdisp⟩
  · exact Schedules.act a Watch watched c f hf

/-- Three processes are started, of which the first may not run on hart 0. -/
def elsewhere : List (Hart × Action) :=
  [(0, .call (.do_taskset_exec ⟨[], length_nil_lt⟩ 2)), (0, .call (.do_taskset_exec ⟨[], length_nil_lt⟩ 3)),
    (0, .call (.do_taskset_exec ⟨[], length_nil_lt⟩ 3))]

/-- Hart 0 passes the first process over and takes the second, which has waited longer than the third. -/
theorem dispatch_fair_passedOver : ∃ c f : Seen, c.dev.ready = [⟨0, by decide⟩, ⟨1, by decide⟩, ⟨2, by decide⟩] ∧
    exec watched (do_scheduler 0) c = some ((), f) ∧ f.mem.current_running 0 = some ⟨1, by decide⟩ ∧
    f.dev.ready = [⟨0, by decide⟩, ⟨2, by decide⟩] ∧
    ∃ e : Seen, exec watched check_sleeping c = some ((), e) ∧ Dispatch 0 (e.dev.ready ++ preempted 0 e.mem) f := by
  have hrun : (stepsIf (fun m h a => decide (NoRemoteKill m h a)) elsewhere .start).bind (fun s =>
      (exec pointers (act 0 .timer) s).map fun r => decide ((Enabled s.mem 0 .timer ∧ s.mem.current_running 0 = none) ∧
        s.dev.Ring (.head .ready_queue) ([⟨0, by decide⟩, ⟨1, by decide⟩, ⟨2, by decide⟩].map .task) ∧
        r.2.dev.Ring (.head .ready_queue) ([⟨0, by decide⟩, ⟨2, by decide⟩].map .task) ∧
        r.2.mem.current_running 0 = some ⟨1, by decide⟩)) = some true := by decide +kernel
  obtain ⟨s, hs, hrun⟩ := Option.bind_eq_some_iff.mp hrun
  obtain ⟨⟨⟨⟩, s'⟩, hs', hrun⟩ := Option.map_eq_some_iff.mp hrun
  obtain ⟨⟨hen, hidle⟩, hring, hring', hcur⟩ := of_decide_eq_true hrun
  obtain ⟨s₀, -, hok, w, hw, hseen⟩ := ((Reach.boot boot_start).stepsIf (fun _ _ _ => of_decide_eq_true) hs).seen
  obtain ⟨w', hf, hw'⟩ := hw.step (noRemoteKill_of_plain rfl) ⟨hen, hs'⟩
  have hact : exec watched (do_scheduler 0) ⟨s.mem, w⟩ = some ((), ⟨s'.mem, w'⟩) := by
    rw [← hf, act, exec_bind, exec_get, Option.bind_some, hidle]
  obtain ⟨e, he, -, -, hdisp⟩ := (dispatch_fair hok hseen).2.1 0 (pure ()) _ _ rfl hact
  exact ⟨⟨s.mem, w⟩, ⟨s'.mem, w'⟩, hw.ready_eq hring, hact, hcur, hw'.ready_eq hring', e, he, hdisp⟩

end OsLab.Sched
