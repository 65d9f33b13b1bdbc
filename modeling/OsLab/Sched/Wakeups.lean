import OsLab.Sched.Runs

/-!
# Queues and waiting tasks on one hart

In every state that one hart can reach, every queue is a circular list, a task is in the queue that
its status says, and no task waits in vain: a mutex with waiting tasks is locked, a task that is waited
for has not ended, and a send or a receive that waits could not complete.

This needs that no mailbox is closed for good while a send or a receive on it is under way (`Call.Valid`). That no task
waits in it is not enough (`Call.Promised`): a task that has been woken may block in the mailbox again after it has been
closed, and the next `do_mbox_open` then initialises the queue that it is in (`disciplined_reopen_fails`).
The pointers of two tasks that are left so still lead from one to the other, and when the first is killed,
the second is put into the queue of the new mailbox (`noLostWakeups_reopen_fails`).
-/

namespace OsLab.Sched

open Lib ProgM

variable {s : Machine}

/-- The lists `Q` are what the pointers hold, and they go with the statuses. -/
structure Disciplined (h₀ : Hart) (s : Machine) (Q : Queue → List Slot) : Prop where
  /-- Every queue is a circular list; the `block_queue` of a slot that was never used is still zero. -/
  ring : ∀ q, s.dev.Ring (.head q) ((Q q).map .task) ∨
    ∃ i, q = .wait i ∧ s.mem.status i = .TASK_EXITED ∧
    Q q = [] ∧ s.dev.next (.head q) = none ∧ s.dev.prev (.head q) = none
  once : ∀ q, (Q q).Nodup
  one : ∀ i q q', i ∈ Q q → i ∈ Q q' → q = q'
  ready : ∀ i, s.mem.status i = .TASK_READY ↔ i ∈ Q .ready_queue
  blocked : ∀ i, s.mem.status i = .TASK_BLOCKED ↔ ∃! q, q ≠ .ready_queue ∧ i ∈ Q q
  free : ∀ i, s.mem.status i = .TASK_RUNNING ∨ s.mem.status i = .TASK_EXITED → ∀ q, i ∉ Q q
  running : ∀ i, s.mem.status i = .TASK_RUNNING → s.mem.current_running h₀ = some i

theorem Sound.disciplined {h₀ : Hart} {Q : Queues} (hrep : Repr Q s.dev) (hinv : Inv ⟨s.mem, Q⟩)
    (hpid0 : ∀ h, h ≠ h₀ → s.mem.current_running h = none) : Disciplined h₀ s Q.tasks := by
  refine ⟨fun q => ?_, hinv.disc.nodup, fun i q q' => hinv.disc.disjoint, fun i => hinv.disc.ready_iff, fun i => ?_,
    fun i hi => ?_, fun i hi => ?_⟩
  · by_cases hup : Q.Up q
    · exact Or.inl (hrep.ring q hup)
    · rw [Queues.Up, not_forall] at hup
      obtain ⟨i, hi⟩ := hup
      rw [Classical.not_imp] at hi
      obtain ⟨rfl, hi⟩ := hi
      refine Or.inr ⟨i, rfl, ?_, hrep.down i hi, hrep.raw i hi⟩
      by_contra hex
      exact hi (hinv.up i hex)
  · refine (hinv.disc.blocked_iff (i := i)).trans ⟨?_, ?_⟩
    · rintro ⟨q, hq, hi⟩
      exact ⟨q, ⟨hq, hi⟩, fun q' hq' => hinv.disc.disjoint hq'.2 hi⟩
    · rintro ⟨q, hq, -⟩
      exact ⟨q, hq⟩
  · rcases hi with hi | hi
    · exact hinv.disc.free_running hi
    · exact hinv.disc.free_exited hi
  · obtain ⟨h, hh⟩ := hinv.disc.run hi
    by_cases hne : h = h₀
    · rwa [hne] at hh
    · rw [hpid0 h hne] at hh
      cases hh

/-- The queues are in order in every state that one hart can reach. -/
theorem disciplined_of_reach (h₀ : Hart) (hr : Reach (OneHart h₀) s) : ∃ Q, Disciplined h₀ s Q := by
  obtain ⟨Q, hrep, hinv⟩ := hr.soundOne
  exact ⟨Q.tasks, Sound.disciplined hrep hinv hr.pid0⟩

/-- No task in the queues `Q` waits in vain. -/
structure NoLostWakeups (s : Machine) (Q : Queue → List Slot) : Prop where
  mutex : ∀ k, (s.mem.mlocks k).locked = false → Q (.mutex k) = []
  ended : ∀ i, s.mem.status i = .TASK_EXITED → Q (.wait i) = []
  empty : ∀ k i, i ∈ Q (.empty k) → ∃ len n, s.mem.resume i = .recv k len n ∧ (s.mem.mailbox k).buffer_idx < len
  full : ∀ k i, i ∈ Q (.full k) →
    ∃ len n, s.mem.resume i = .send k len n ∧ (MAX_MBOX_LENGTH : ℤ) - (s.mem.mailbox k).buffer_idx < len

/-- No wake-up is lost in any state that one hart can reach. -/
theorem noLostWakeups_of_reach (h₀ : Hart) (hr : Reach (OneHart h₀) s) :
    ∃ Q, Disciplined h₀ s Q ∧ NoLostWakeups s Q := by
  obtain ⟨Q, hrep, hinv⟩ := hr.soundOne
  refine ⟨Q.tasks, Sound.disciplined hrep hinv hr.pid0,
    fun k hk => ?_, fun i hi => ?_, fun k i hi => ?_, fun k i hi => ?_⟩
  · refine List.eq_nil_iff_forall_not_mem.mpr fun i hi => ?_
    have hl : (s.mem.mlocks k).locked = true := hinv.waits (.mutex k) i hi
    rw [hk] at hl
    cases hl
  · exact hinv.waits.nobody hi
  · exact (hinv.waits (.empty k) i hi).2
  · obtain ⟨-, len, n, he, hlt⟩ := hinv.waits (.full k) i hi
    refine ⟨len, n, he, ?_⟩
    have hlt' : (MAX_MBOX_LENGTH : ℤ) < (s.mem.mailbox k).buffer_idx + len := hlt
    omega

/-- A process that waits for itself: it is started, run, and calls `do_waitpid` with its own pid. -/
def waitSelf : List (Hart × Action) :=
  [(0, .call (.do_taskset_exec ⟨[], length_nil_lt⟩ 3)), (0, .timer), (0, .call (.do_waitpid 1))]

theorem exists_waitSelf : ∃ s : Machine, Reach (OneHart 0) s ∧ s.mem.status ⟨0, by decide⟩ = .TASK_BLOCKED := by
  have hrun : (steps waitSelf .start).map (fun s => decide (s.mem.status ⟨0, by decide⟩ = .TASK_BLOCKED)) =
    some true := by decide +kernel
  obtain ⟨s, he, hs⟩ := Option.map_eq_some_iff.mp hrun
  refine ⟨s, (Reach.boot boot_start).steps waitSelf ?_ he, of_decide_eq_true hs⟩
  intro m x hx
  simp only [waitSelf, List.mem_cons, List.not_mem_nil, or_false] at hx
  rcases hx with rfl | rfl | rfl
  all_goals exact ⟨rfl, trivial⟩

/-- The task that waits for itself is in one waiting queue, as any other. -/
theorem disciplined_waitSelf : ∃ s : Machine, s.mem.status ⟨0, by decide⟩ = .TASK_BLOCKED ∧ ∃ Q, Disciplined 0 s Q := by
  obtain ⟨s, hr, hs⟩ := exists_waitSelf
  exact ⟨s, hs, disciplined_of_reach 0 hr⟩

theorem noLostWakeups_waitSelf : ∃ s : Machine,
    s.mem.status ⟨0, by decide⟩ = .TASK_BLOCKED ∧ ∃ Q, Disciplined 0 s Q ∧ NoLostWakeups s Q := by
  obtain ⟨s, hr, hs⟩ := exists_waitSelf
  exact ⟨s, hs, noLostWakeups_of_reach 0 hr⟩

/-! ### Mailboxes that are closed while a task has only been woken -/

/-- Handles are used while they are active, no mailbox is closed while a task waits in it, and a message
fits a mailbox. -/
def Call.Promised (s : Kernel) : Call → Prop
  | .do_mbox_send k _ len => (s.mailbox k).active = true ∧ 0 ≤ len ∧ len ≤ MAX_MBOX_LENGTH
  | .do_mbox_recv k len => (s.mailbox k).active = true ∧ 0 ≤ len ∧ len ≤ MAX_MBOX_LENGTH
  | .do_mbox_close k => (s.mailbox k).active = true ∧ ∀ i, s.status i = .TASK_BLOCKED → (s.resume i).mailbox ≠ some k
  | c => c.Valid s

instance (s : Kernel) (c : Call) : Decidable (c.Promised s) := by
  unfold Call.Promised
  rcases c <;> infer_instance

/-- Only hart `h₀` runs, and its calls are as promised. -/
def OneHartPromised (h₀ : Hart) (m : Kernel) (h : Hart) : Action → Prop
  | .call c => h = h₀ ∧ c.Promised m
  | _ => h = h₀

instance (h₀ : Hart) (m : Kernel) (h : Hart) (a : Action) : Decidable (OneHartPromised h₀ m h a) := by
  unfold OneHartPromised
  rcases a <;> infer_instance

/-- A task that the head of a queue points to is in the queue. -/
theorem Disciplined.mem_of_next {h₀ : Hart} {Q : Queue → List Slot} (d : Disciplined h₀ s Q) {q : Queue} {i : Slot}
    (hn : s.dev.next (.head q) = some (.task i)) : i ∈ Q q := by
  rcases d.ring q with r | ⟨j, rfl, -, -, hnone, -⟩
  · have hhead := r.next_head.symm.trans hn
    cases hQ : Q q with
    | nil =>
      rw [hQ] at hhead
      cases hhead
    | cons j l =>
      rw [hQ] at hhead
      cases hhead
      exact List.mem_cons_self ..
  · rw [hnone] at hn
    cases hn

/-- A queue whose head points to itself is empty. -/
theorem Disciplined.nil_of_next {h₀ : Hart} {Q : Queue → List Slot} (d : Disciplined h₀ s Q) {q : Queue}
    (hn : s.dev.next (.head q) = some (.head q)) : Q q = [] := by
  rcases d.ring q with r | ⟨j, rfl, -, hnil, -⟩
  · have hhead := r.next_head.symm.trans hn
    cases hQ : Q q with
    | nil => rfl
    | cons j l =>
      rw [hQ] at hhead
      cases hhead
  · exact hnil

/-- A blocked task that points to the head of a queue is in this queue. -/
theorem Disciplined.mem_of_next_head {h₀ : Hart} {Q : Queue → List Slot} (d : Disciplined h₀ s Q) {q : Queue} {i : Slot}
    (hb : s.mem.status i = .TASK_BLOCKED) (hn : s.dev.next (.task i) = some (.head q)) : i ∈ Q q := by
  obtain ⟨q', ⟨-, hi⟩, -⟩ := (d.blocked i).mp hb
  rcases d.ring q' with r | ⟨j, rfl, -, hnil, -⟩
  · have hmem := r.next_mem (List.mem_cons_of_mem _ (List.mem_map_of_mem hi)) hn
    rcases List.mem_cons.mp hmem with he | he
    · cases he
      exact hi
    · simp at he
  · rw [hnil] at hi
    cases hi

/-- The name of the program and of the mailbox. -/
def anyName : Name := ⟨[], length_nil_lt⟩

/-- The mailbox that is opened first. -/
def firstBox : Handle := ⟨0, lock_num_pos⟩

/-- `main` starts a process, which starts a second one. Both have two threads and open a mailbox. A task of
each receives from it and is woken by a message that is too short, the mailbox is closed by both processes,
the woken tasks block in it again, and it is opened once more. -/
def reopened : List (Hart × Action) :=
  [(0, .call (.do_exec anyName)), (0, .call (.do_taskset_pid 1 3)), (0, .timer), (0, .call (.do_exec anyName)),
    (0, .call (.do_pthread_create 1)), (0, .call (.do_mbox_open anyName)),
    (0, .timer), (0, .call (.do_mbox_open anyName)), (0, .call (.do_pthread_create 1)),
    (0, .call (.do_mbox_recv firstBox 5)), (0, .call (.do_mbox_recv firstBox 2)),
    (0, .call (.do_mbox_send firstBox (fun _ => 7) 1)),
    (0, .call (.do_mbox_close firstBox)), (0, .timer),
    (0, .call (.do_mbox_close firstBox)), (0, .timer), (0, .resume fun _ => 0),
    (0, .resume fun _ => 0), (0, .call (.do_mbox_open anyName))]

/-- The two receiving tasks are blocked, and in no queue. -/
theorem disciplined_reopen_fails : ¬ ∀ s : Machine, Reach (OneHartPromised 0) s → ∃ Q, Disciplined 0 s Q := by
  intro hall
  have hrun : (stepsIf (fun m h a => decide (OneHartPromised 0 m h a)) reopened .start).map (fun s => decide
      (s.mem.status ⟨2, by decide⟩ = .TASK_BLOCKED ∧
        s.dev.next (.head (.empty firstBox)) = some (.head (.empty firstBox)) ∧
        s.dev.next (.task ⟨2, by decide⟩) = some (.head (.empty firstBox)))) = some true := by decide +kernel
  obtain ⟨s, he, hs⟩ := Option.map_eq_some_iff.mp hrun
  obtain ⟨hb, hhead, htask⟩ := of_decide_eq_true hs
  obtain ⟨Q, d⟩ := hall s ((Reach.boot boot_start).stepsIf (fun _ _ _ => of_decide_eq_true) he)
  have hmem := d.mem_of_next_head hb htask
  rw [d.nil_of_next hhead] at hmem
  cases hmem

/-- Five bytes are sent to the new mailbox, and the first of the two tasks is killed: `empty_queue` leads to
the other one, which waits for two bytes. -/
theorem noLostWakeups_reopen_fails : ∃ (s : Machine) (i : Slot) (k : Handle) (len n : ℤ), Reach (OneHartPromised 0) s ∧
    s.dev.next (.head (.empty k)) = some (.task i) ∧
    s.mem.resume i = .recv k len n ∧ len ≤ (s.mem.mailbox k).buffer_idx ∧
    ¬ ∃ Q, Disciplined 0 s Q ∧ NoLostWakeups s Q := by
  have hrun : (stepsIf (fun m h a => decide (OneHartPromised 0 m h a))
      (reopened ++ [(0, .call (.do_mbox_send firstBox (fun _ => 7) 5)), (0, .call (.do_kill 2))]) .start).map
      (fun s => decide
        (s.dev.next (.head (.empty firstBox)) = some (.task ⟨2, by decide⟩) ∧
          s.mem.resume ⟨2, by decide⟩ = .recv firstBox 2 2 ∧
          (s.mem.mailbox firstBox).buffer_idx = 5)) = some true := by decide +kernel
  obtain ⟨s, he, hs⟩ := Option.map_eq_some_iff.mp hrun
  obtain ⟨hhead, hres, hidx⟩ := of_decide_eq_true hs
  refine ⟨s, _, _, 2, 2, (Reach.boot boot_start).stepsIf (fun _ _ _ => of_decide_eq_true) he,
    hhead, hres, by rw [hidx]; decide, ?_⟩
  rintro ⟨Q, d, hw⟩
  obtain ⟨len, n, hrecv, hlt⟩ := hw.empty _ _ (d.mem_of_next hhead)
  have hlen : (2 : ℤ) = len := (Resume.recv.inj (hres.symm.trans hrecv)).2.1
  rw [hidx, ← hlen] at hlt
  exact absurd hlt (by decide)

end OsLab.Sched
