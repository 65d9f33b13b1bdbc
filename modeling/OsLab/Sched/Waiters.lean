import OsLab.Sched.Barrier

/-!
# Killed waiters

The counter of a barrier is raised by `do_barrier_wait` and reset when a round is complete. `do_kill`
takes the tasks it ends out of whatever queue they are in, and knows nothing of the counter. So the
counter is the number of waiting tasks as long as no call of `do_kill` ends one of them, and not after
the first that does (`counts_iff`).

`do_kill(pid)` does to a queue what a filter does (`do_kill_filters`): its victims leave it.
-/

namespace OsLab.Sched

open Lib ProgM

variable {c c' : St} {s s' : Machine} {m : Kernel} {h : Hart}
    {a : Action} {i j : Slot} {k : Handle} {q : Queue} {pid : Int32}

/-! ### The victims of `do_kill` -/

/-- The tasks that a `do_kill(pid)` of task `i` ends besides the task itself. They are found from the
lowest slot on, and when the caller is one of them the call ends with it. -/
def Victim (m : Kernel) (i : Slot) (pid : Int32) (j : Slot) : Prop :=
  (m.pcb j).pid = pid ∧ m.status j ≠ .TASK_EXITED ∧ ((m.pcb i).pid = pid → j < i)

instance : Decidable (Victim m i pid j) := inferInstanceAs (Decidable (_ ∧ _))

/-- `pid_to_pcb_id` finds the lowest slot. -/
theorem pid_to_pcb_id_lowest {x : Slot} (hp : pid_to_pcb_id m.pcb pid = some j) (hx : (m.pcb x).pid = pid)
    (hs : m.status x ≠ .TASK_EXITED) : j ≤ x := by
  obtain ⟨-, as, bs, hl, has⟩ := List.find?_eq_some_iff_append.mp hp
  have hsorted := List.pairwise_lt_finRange NUM_MAX_TASK
  have hmem := List.mem_finRange x
  rw [hl] at hsorted hmem
  rcases List.mem_append.mp hmem with hin | hin
  · have := has x hin
    simp only [hx, true_and, Bool.not_eq_true', decide_eq_false_iff_not, not_not] at this
    exact absurd this hs
  · rcases List.mem_cons.mp hin with rfl | hin
    · exact le_refl _
    · have := (List.pairwise_cons.mp (List.pairwise_append.mp hsorted).2.1).1 x hin
      exact le_of_lt this

/-- What `do_kill` does to one task takes that task out of the queue. -/
theorem killPcb_erases (hq : q.Aside) (hj : .wait j ≠ q) (hd : c.dev.Apart) :
    Ensures listed c (killPcb j pid) fun _ c' =>
    c'.dev q = (c.dev q).erase j ∧ Calm q (some j) c.mem c'.mem := by
  rw [killPcb]
  refine (hq.wake (o := some j) hj c hd).bind ?_
  rintro _ c₁ ⟨hd₁, hq₁, n₁⟩
  refine (hq.releaseLoop (o := some j) pid _ c₁ hd₁).bind ?_
  rintro _ c₂ ⟨hd₂, hq₂, n₂⟩
  refine (releasePages_spares (q := q) (o := some j) c₂ hd₂).bind ?_
  rintro _ c₃ ⟨hd₃, hq₃, n₃⟩
  refine (setExited_spares (q := q) c₃ hd₃).bind ?_
  rintro _ c₄ ⟨hd₄, hq₄, n₄⟩
  refine (record_spares (q := q) (o := some j) (.ended j) c₄ hd₄).bind ?_
  rintro _ c₅ ⟨hd₅, hq₅, n₅⟩
  intro _ c' he
  obtain ⟨-, rfl⟩ := Prod.mk.inj (Option.some.inj (exec_remove_pcb_queue.symm.trans he))
  have hcalm : Calm q (some j) c.mem c₅.mem :=
    IsTrans.trans _ _ _ (IsTrans.trans _ _ _ (IsTrans.trans _ _ _ (IsTrans.trans _ _ _ n₁ n₂) n₃) n₄) n₅
  have hsame : c₅.dev q = c.dev q := hq₅.trans (hq₄.trans (hq₃.trans (hq₂.trans hq₁)))
  refine ⟨?_, hcalm⟩
  rw [← hsame, move_none]

/-- When the caller itself is hit, the victims have all been found before. -/
theorem not_victim_of_self (hp : pid_to_pcb_id m.pcb pid = some i) (x : Slot) : ¬ Victim m i pid x := by
  rintro ⟨hx, hs, hlt⟩
  exact absurd (hlt (pid_to_pcb_id_some hp).1) (not_lt.mpr (pid_to_pcb_id_lowest hp hx hs))

/-- The loop of `do_kill` filters a queue. -/
theorem killLoop_filters (hq : q.Meets) (fuel : ℕ) (ha : At h i c)
    (hother : ∀ h', h' ≠ h → ∀ x, c.mem.current_running h' = some x → (c.mem.pcb x).pid ≠ pid) :
    Ensures listed c (killLoop h i pid fuel) fun _ c' => c'.dev q = (c.dev q).filter (fun x => ¬ Victim c.mem i pid x) ∧
      ∀ k, q = .barrier k → (c.mem.barrier k).active = true → c'.mem.barrier k = c.mem.barrier k := by
  induction fuel generalizing c with
  | zero => exact Ensures.stop
  | succ fuel ih =>
    rw [killLoop]
    refine Ensures.get_bind ?_
    cases hp : pid_to_pcb_id c.mem.pcb pid with
    | none =>
      refine (finish_spares (q := q) 1 c ha.disc.apart).mono ?_
      rintro _ c' ⟨-, hdev, hcalm⟩
      refine ⟨hdev.trans (List.filter_eq_self.mpr fun x _ => ?_).symm, hcalm.barrier⟩
      have := List.find?_eq_none.mp hp x (List.mem_finRange x)
      simp only [decide_eq_true_eq, not_and, not_not] at this
      simp only [decide_eq_true_eq]
      exact fun hv => hv.2.1 (this hv.1)
    | some j =>
      obtain ⟨hpid, hst⟩ := pid_to_pcb_id_some hp
      simp only []
      split
      · next hji =>
        subst hji
        refine (hq.exit c ha.disc.apart).mono ?_
        rintro _ c' ⟨-, hdev, hcalm⟩
        refine ⟨hdev.trans (List.filter_eq_self.mpr fun x _ => ?_).symm, hcalm.barrier⟩
        exact decide_eq_true (not_victim_of_self hp x)
      · next hji =>
        refine ((killPcb_erases hq.aside (hq.ne_wait j) ha.disc.apart).and
          (Ensures.of_returns (killRound_spec ha hp hji hother))).bind ?_
        rintro _ c₁ ⟨⟨hdev, hcalm⟩, ha₁, hk, hex, hother₁⟩
        refine (ih ha₁ hother₁).mono ?_
        rintro _ c' ⟨hdev', hb⟩
        have hj : Victim c.mem i pid j := by
          refine ⟨hpid, hst, fun hi => lt_of_le_of_ne (pid_to_pcb_id_lowest hp hi ?_) hji⟩
          rw [ha.running]
          decide
        -- the other tasks of the queue are victims now if they were before
        have hsame : ∀ x ∈ c.dev q, x ≠ j → (Victim c₁.mem i pid x ↔ Victim c.mem i pid x) := by
          intro x hx hxj
          have hblocked : c.mem.status x = .TASK_BLOCKED := ha.disc.blocked_iff.mpr ⟨q, hq.aside.ne_ready, hx⟩
          have halive : c.mem.status x ≠ .TASK_EXITED := by
            rw [hblocked]
            decide
          have halive' := hcalm.alive x (fun e => hxj (Option.some.inj e).symm) halive
          simp only [Victim, hk.pid, halive, halive', ne_eq, not_false_eq_true, true_and]
        refine ⟨?_, fun k hqk hact => ?_⟩
        · rw [hdev', hdev, (ha.disc.nodup q).erase_eq_filter, List.filter_filter]
          apply List.filter_congr
          intro x hx
          by_cases hxj : x = j
          · subst hxj
            simp [hj]
          · simp [hsame x hx hxj, hxj]
        · have hb₁ := hcalm.barrier k hqk hact
          exact (hb k hqk (by rw [hb₁]; exact hact)).trans hb₁

/-- `do_kill` takes its victims out of a queue and leaves the others. -/
theorem do_kill_filters (hq : q.Meets) (ha : At h i c)
    (hother : ∀ h', h' ≠ h → ∀ x, c.mem.current_running h' = some x → (c.mem.pcb x).pid ≠ pid) :
    Ensures listed c (do_kill h i pid) fun _ c' => c'.dev q = (c.dev q).filter (fun x => ¬ Victim c.mem i pid x) ∧
      ∀ k, q = .barrier k → (c.mem.barrier k).active = true → c'.mem.barrier k = c.mem.barrier k :=
  killLoop_filters hq _ ha hother

/-! ### Runs -/

/-- The counter of the barrier is the number of tasks that wait in its queue. -/
def Counts (k : Handle) (s : Machine) : Prop :=
  ∃ l : List Slot, s.dev.Ring (.head (.barrier k)) (l.map .task) ∧ (s.mem.barrier k).counter = l.length ∧
    ∀ j ∈ l, s.mem.status j = .TASK_BLOCKED

/-- A `do_kill` ends no task that waits at the barrier. -/
def SparesWaiters (k : Handle) (s : Machine) (h : Hart) (a : Action) : Prop :=
  ∀ pid i, a = .call (.do_kill pid) → s.mem.current_running h = some i →
    ∀ l : List Slot, s.dev.Ring (.head (.barrier k)) (l.map .task) → ∀ j ∈ l, ¬ Victim s.mem i pid j

/-- Runs from a `do_barrier_init(key, goal)` that returns `k` until the barrier is destroyed. Every
step meets `P`. -/
inductive WaiterRun (k : Handle) (P : Machine → Hart → Action → Prop) : Machine → Prop where
  /-- The barrier is initialised. -/
  | init {s s' : Machine} {h : Hart} {i : Slot} {key goal : ℤ}
      (hr : Reach NoRemoteKill s) (hi : s.mem.current_running h = some i)
      (hs : Step h (.call (.do_barrier_init key goal)) s s') (hk : s'.mem.a0 i = k.1) : WaiterRun k P s'
  /-- Any step. -/
  | step {s s' : Machine} {h : Hart} {a : Action} (hr : WaiterRun k P s) (hv : NoRemoteKill s.mem h a)
      (hd : a ≠ .call (.do_barrier_destroy k)) (hp : P s h a) (hs : Step h a s s') : WaiterRun k P s'

/-- The pointers hold queues in order, and the counter of the barrier is right. -/
def Counted (k : Handle) (s : Machine) (Q : Queues) : Prop :=
  Repr Q s.dev ∧ Inv ⟨s.mem, Q⟩ ∧ (s.mem.barrier k).active = true ∧ (s.mem.barrier k).counter = (Q (.barrier k)).length

/-- The queue of the barrier is the one that the pointers hold. -/
theorem Repr.eq_barrier {Q : Queues} (hrep : Repr Q s.dev)
    {l : List Slot} (hl : s.dev.Ring (.head (.barrier k)) (l.map .task)) :
    l = Q (.barrier k) := hrep.eq_of_ring hl nofun

theorem Counted.counts {Q : Queues} (hc : Counted k s Q) : Counts k s :=
  ⟨Q (.barrier k), hc.1.ring (.barrier k) nofun, hc.2.2.2, fun _ hj => hc.2.1.blocked_of_barrier hj⟩

theorem Counted.of_counts {Q : Queues} (hrep : Repr Q s.dev) (hc : Counts k s) :
    (s.mem.barrier k).counter = (Q (.barrier k)).length := by
  obtain ⟨l, hl, hlen, -⟩ := hc
  rw [hlen, hrep.eq_barrier hl]

/-- A step other than `do_kill` keeps the counter right. -/
theorem Counted.step {Q : Queues} (hc : Counted k s Q)
    (hv : NoRemoteKill s.mem h a) (hkill : ∀ pid, a ≠ .call (.do_kill pid))
    (hd : a ≠ .call (.do_barrier_destroy k)) (hs : Step h a s s') : ∃ Q', Counted k s' Q' := by
  obtain ⟨hrep, hinv, hact, hcount⟩ := hc
  obtain ⟨Q', hrep', hinv', he⟩ := hs.listed hrep hinv hv.1 hv.2
  refine ⟨Q', hrep', hinv', ?_⟩
  by_cases hw : a = .call (.do_barrier_wait k)
  · subst hw
    obtain ⟨i, hi⟩ : ∃ i, s.mem.current_running h = some i := exists_task he fun _ _ _ => ⟨nofun, nofun, nofun⟩
    have ha : At h i ⟨s.mem, Q⟩ := ⟨hinv, hi⟩
    by_cases hlt : (s.mem.barrier k).counter + 1 < (s.mem.barrier k).goal
    · have hpost := Ensures.act_call ha (e := .do_barrier_wait k) (do_barrier_wait_blocks ha hact hlt) _ _ he
      have hdev : Q' (.barrier k) = Q (.barrier k) ++ [i] := hpost.1
      have hb : s'.mem.barrier k = { s.mem.barrier k with counter := (s.mem.barrier k).counter + 1 } := hpost.2
      refine ⟨by rw [hb]; exact hact, ?_⟩
      rw [hb, hdev, List.length_append, List.length_singleton]
      push_cast
      rw [hcount]
    · have hpost := Ensures.act_call ha (e := .do_barrier_wait k)
        (do_barrier_wait_releases ha hact (not_lt.mp hlt)) _ _ he
      have hdev : Q' (.barrier k) = [] := hpost.1
      have hb : s'.mem.barrier k = { s.mem.barrier k with counter := 0 } := hpost.2.1
      refine ⟨by rw [hb]; exact hact, ?_⟩
      rw [hb, hdev, List.length_nil]
      rfl
  · have hpost := act_spares (q := .barrier k) trivial (spares_barrier hkill hw hd) hinv.disc.apart _ _ he
    have hdev : Q' (.barrier k) = Q (.barrier k) := hpost.2.1
    have hb : s'.mem.barrier k = s.mem.barrier k := hpost.2.2.barrier k rfl hact
    rw [hdev, hb]
    exact ⟨hact, hcount⟩

/-- A `do_kill` leaves the counter as it is, and takes its victims out of the queue. -/
theorem Counted.kill {Q : Queues} (hc : Counted k s Q) (hv : NoRemoteKill s.mem h (.call (.do_kill pid)))
    (hs : Step h (.call (.do_kill pid)) s s') :
    ∃ Q' i, Repr Q' s'.dev ∧ Inv ⟨s'.mem, Q'⟩ ∧ s.mem.current_running h = some i ∧
      s'.mem.barrier k = s.mem.barrier k ∧
      Q' (.barrier k) = (Q (.barrier k)).filter fun x => ¬ Victim s.mem i pid x := by
  obtain ⟨hrep, hinv, hact, hcount⟩ := hc
  obtain ⟨Q', hrep', hinv', he⟩ := hs.listed hrep hinv hv.1 hv.2
  obtain ⟨i, hi⟩ : ∃ i, s.mem.current_running h = some i := exists_task he fun _ _ _ => ⟨nofun, nofun, nofun⟩
  have ha : At h i ⟨s.mem, Q⟩ := ⟨hinv, hi⟩
  obtain ⟨hdev, hb⟩ := Ensures.act_call ha (e := .do_kill pid)
    (do_kill_filters (q := .barrier k) trivial ha (hv.2 pid rfl)) _ _ he
  exact ⟨Q', i, hrep', hinv', hi, hb k rfl hact, hdev⟩

/-- What a step keeps, and when. -/
theorem Counted.step_iff {Q : Queues} (hc : Counted k s Q)
    (hv : NoRemoteKill s.mem h a) (hd : a ≠ .call (.do_barrier_destroy k))
    (hs : Step h a s s') : (Counts k s' ↔ SparesWaiters k s h a) ∧ (SparesWaiters k s h a → ∃ Q', Counted k s' Q') := by
  by_cases hkill : ∃ pid, a = .call (.do_kill pid)
  · obtain ⟨pid, rfl⟩ := hkill
    obtain ⟨Q', i, hrep', hinv', hi, hb, hdev⟩ := hc.kill hv hs
    have hcount := hc.2.2.2
    have hall : SparesWaiters k s h (.call (.do_kill pid)) ↔ ∀ j ∈ Q (.barrier k), ¬ Victim s.mem i pid j := by
      constructor
      · exact fun hsp => hsp pid i rfl hi _ (hc.1.ring (.barrier k) nofun)
      · rintro hall pid' i' he hi' l hl j hj
        cases he
        obtain rfl : i = i' := Option.some.inj (hi.symm.trans hi')
        exact hall j (hc.1.eq_barrier hl ▸ hj)
    have hkeep : SparesWaiters k s h (.call (.do_kill pid)) → Counted k s' Q' := by
      intro hsp
      have hself : Q' (.barrier k) = Q (.barrier k) := by
        rw [hdev]
        exact List.filter_eq_self.mpr fun x hx => decide_eq_true (hall.mp hsp x hx)
      refine ⟨hrep', hinv', by rw [hb]; exact hc.2.2.1, ?_⟩
      rw [hb, hself]
      exact hcount
    refine ⟨⟨fun hcounts => hall.mpr fun j hj => ?_, fun hsp => (hkeep hsp).counts⟩, fun hsp => ⟨Q', hkeep hsp⟩⟩
    have hlen := Counted.of_counts hrep' hcounts
    rw [hb, hcount, hdev] at hlen
    have := List.length_filter_eq_length_iff.mp (Int.ofNat.inj hlen).symm j hj
    simpa using this
  · have hkill : ∀ pid, a ≠ .call (.do_kill pid) := fun pid he => hkill ⟨pid, he⟩
    obtain ⟨Q', hc'⟩ := hc.step hv hkill hd hs
    have hsp : SparesWaiters k s h a := fun pid _ he => absurd he (hkill pid)
    exact ⟨⟨fun _ => hsp, fun _ => hc'.counts⟩, fun _ => ⟨Q', hc'⟩⟩

/-- A new barrier counts right. -/
theorem counted_init {key goal : ℤ} (hr : Reach NoRemoteKill s) (hi : s.mem.current_running h = some i)
    (hs : Step h (.call (.do_barrier_init key goal)) s s') (hk : s'.mem.a0 i = k.1) : ∃ Q, Counted k s' Q := by
  obtain ⟨Q, hrep, hinv⟩ := hr.sound fun _ _ _ hp => hp
  obtain ⟨Q', hrep', hinv', he⟩ := hs.listed hrep hinv trivial (killOk_of_ne nofun)
  have ha : At h i ⟨s.mem, Q⟩ := ⟨hinv, hi⟩
  obtain ⟨hb, hnil⟩ := Ensures.act_call ha (e := .do_barrier_init key goal)
    (do_barrier_init_ensures ha key goal) _ _ he hk
  have hb : s'.mem.barrier k = ⟨key, goal, 0, true⟩ := hb
  have hnil : Q' (.barrier k) = [] := hnil
  refine ⟨Q', hrep', hinv', by rw [hb], ?_⟩
  rw [hb, hnil]
  rfl

/-- What every run keeps. -/
theorem WaiterRun.counted (hr : WaiterRun k (SparesWaiters k) s) : ∃ Q, Counted k s Q := by
  induction hr with
  | init hr hi hs hk => exact counted_init hr hi hs hk
  | step hr hv hd hp hs ih =>
    obtain ⟨Q, hc⟩ := ih
    exact (hc.step_iff hv hd hs).2 hp

/-- **Killed waiters do not count, as long as none is killed.** In a run in which no `do_kill` ends a
task that waits at the barrier, the counter is the number of waiting tasks. It stays so after one more
step exactly when that step does not end a waiting task either. -/
theorem counts_iff (hr : WaiterRun k (SparesWaiters k) s) : Counts k s ∧
    ∀ (h : Hart) (a : Action) (s' : Machine),
    NoRemoteKill s.mem h a → a ≠ .call (.do_barrier_destroy k) → Step h a s s' →
      (Counts k s' ↔ SparesWaiters k s h a) := by
  obtain ⟨Q, hc⟩ := hr.counted
  exact ⟨hc.counts, fun h a s' hv hd hs => (hc.step_iff hv hd hs).1⟩

/-! ### A waiter is killed -/

theorem WaiterRun.mono {P P' : Machine → Hart → Action → Prop}
    (hr : WaiterRun k P s) (hP : ∀ s h a, P s h a → P' s h a) :
    WaiterRun k P' s := by
  induction hr with
  | init hr hi hs hk => exact .init hr hi hs hk
  | step _ hv hd hp hs ih => exact ih.step hv hd (hP _ _ _ hp) hs

/-- Three processes, of which the first runs. -/
def threeTasks : List (Hart × Action) :=
  [(0, .call (.do_taskset_exec ⟨[], length_nil_lt⟩ 3)), (0, .call (.do_taskset_exec ⟨[], length_nil_lt⟩ 3)),
    (0, .call (.do_taskset_exec ⟨[], length_nil_lt⟩ 3)), (0, .timer)]

/-- A task that a `do_kill` ends and that is not blocked does not wait at the barrier. -/
theorem WaiterRun.spares (hr : WaiterRun k (SparesWaiters k) s) {pid : Int32} (hi : s.mem.current_running h = some i)
    (hv : ∀ j, Victim s.mem i pid j → s.mem.status j ≠ .TASK_BLOCKED) : SparesWaiters k s h (.call (.do_kill pid)) := by
  obtain ⟨Q, hc⟩ := hr.counted
  rintro pid' i' he hi' l hl j hj hvic
  obtain rfl : pid = pid' := by cases he; rfl
  obtain rfl : i = i' := Option.some.inj (hi.symm.trans hi')
  exact hv j hvic (hc.2.1.blocked_of_barrier (hc.1.eq_barrier hl ▸ hj))

/-- Of three processes the first waits at a barrier for two, and the second kills the third. -/
theorem exists_waiting : ∃ s : Machine, WaiterRun ⟨0, by decide⟩ (SparesWaiters ⟨0, by decide⟩) s ∧
    (s.mem.barrier ⟨0, by decide⟩).counter = 1 ∧ s.mem.status ⟨2, by decide⟩ = .TASK_EXITED ∧
    Enabled s.mem 0 (.call (.do_kill 1)) ∧ NoRemoteKill s.mem 0 (.call (.do_kill 1)) ∧
    ∃ s', exec pointers (act 0 (.call (.do_kill 1))) s = some ((), s') ∧ (s'.mem.barrier ⟨0, by decide⟩).counter = 1 ∧
      s'.dev.next (.head (.barrier ⟨0, by decide⟩)) = some (.head (.barrier ⟨0, by decide⟩)) := by
  have hrun : (stepsIf (fun m h a => decide (NoRemoteKill m h a)) threeTasks .start).bind (fun s =>
      (exec pointers (act 0 (.call (.do_barrier_init 0 2))) s).bind fun r =>
          (exec pointers (act 0 (.call (.do_barrier_wait ⟨0, by decide⟩))) r.2).bind fun r' =>
        (exec pointers (act 0 (.call (.do_kill 3))) r'.2).bind fun r'' =>
          (exec pointers (act 0 (.call (.do_kill 1))) r''.2).map fun w =>
            decide ((s.mem.current_running 0 = some ⟨0, by decide⟩ ∧ Enabled s.mem 0 (.call (.do_barrier_init 0 2)) ∧
              r.2.mem.a0 ⟨0, by decide⟩ = 0 ∧ (r.2.mem.barrier ⟨0, by decide⟩).active = true ∧
              Enabled r.2.mem 0 (.call (.do_barrier_wait ⟨0, by decide⟩))) ∧
              (r'.2.mem.current_running 0 = some ⟨1, by decide⟩ ∧ NoRemoteKill r'.2.mem 0 (.call (.do_kill 3)) ∧
              Enabled r'.2.mem 0 (.call (.do_kill 3)) ∧
              ∀ j, Victim r'.2.mem ⟨1, by decide⟩ 3 j → r'.2.mem.status j ≠ .TASK_BLOCKED) ∧
              (r''.2.mem.barrier ⟨0, by decide⟩).counter = 1 ∧ r''.2.mem.status ⟨2, by decide⟩ = .TASK_EXITED ∧
              Enabled r''.2.mem 0 (.call (.do_kill 1)) ∧ NoRemoteKill r''.2.mem 0 (.call (.do_kill 1)) ∧
              (w.2.mem.barrier ⟨0, by decide⟩).counter = 1 ∧
              w.2.dev.next (.head (.barrier ⟨0, by decide⟩)) = some (.head (.barrier ⟨0, by decide⟩)))) =
              some true := by
    decide +kernel
  obtain ⟨s₀, hs₀, hrun⟩ := Option.bind_eq_some_iff.mp hrun
  obtain ⟨⟨⟨⟩, s₁⟩, hs₁, hrun⟩ := Option.bind_eq_some_iff.mp hrun
  obtain ⟨⟨⟨⟩, s₂⟩, hs₂, hrun⟩ := Option.bind_eq_some_iff.mp hrun
  obtain ⟨⟨⟨⟩, s₃⟩, hs₃, hrun⟩ := Option.bind_eq_some_iff.mp hrun
  obtain ⟨⟨⟨⟩, s₄⟩, hs₄, hrun⟩ := Option.map_eq_some_iff.mp hrun
  obtain ⟨⟨hcur, hen₀, ha0, hact, hen₁⟩, ⟨hcur₂, hp₂, hen₂, hvic⟩, hcount, hexit, hen₃, hp₃, hcount', hnext⟩ :=
    of_decide_eq_true hrun
  have hreach : Reach NoRemoteKill s₀ := (Reach.boot boot_start).stepsIf (fun _ _ _ => of_decide_eq_true) hs₀
  have hinit : WaiterRun ⟨0, by decide⟩ (SparesWaiters ⟨0, by decide⟩) s₁ := .init hreach hcur ⟨hen₀, hs₁⟩ ha0
  have hwait : WaiterRun ⟨0, by decide⟩ (SparesWaiters ⟨0, by decide⟩) s₂ := by
    refine hinit.step (h := 0) (a := .call (.do_barrier_wait ⟨0, by decide⟩))
      ⟨hact, by rintro pid ⟨⟩⟩ (by simp) ?_ ⟨hen₁, hs₂⟩
    rintro pid i ⟨⟩
  have hkill : WaiterRun ⟨0, by decide⟩ (SparesWaiters ⟨0, by decide⟩) s₃ :=
    hwait.step (h := 0) (a := .call (.do_kill 3)) hp₂ (by simp) (hwait.spares hcur₂ hvic) ⟨hen₂, hs₃⟩
  exact ⟨s₃, hkill, hcount, hexit, hen₃, hp₃, s₄, hs₄, hcount', hnext⟩

/-- The counter is right while the first process waits, also after the third has been killed. -/
theorem counts_waiting : ∃ s : Machine, WaiterRun ⟨0, by decide⟩ (SparesWaiters ⟨0, by decide⟩) s ∧
    (s.mem.barrier ⟨0, by decide⟩).counter = 1 ∧
    s.mem.status ⟨2, by decide⟩ = .TASK_EXITED ∧ Counts ⟨0, by decide⟩ s := by
  obtain ⟨s, hr, hcount, hexit, -⟩ := exists_waiting
  exact ⟨s, hr, hcount, hexit, (counts_iff hr).1⟩

/-- The second process kills the first: nobody waits, and the counter is still 1. -/
theorem counts_kill_fails : ¬ ∀ (k : Handle) (s : Machine), WaiterRun k (fun _ _ _ => True) s → Counts k s := by
  intro hall
  obtain ⟨s, hr, -, -, hen, hv, s', hs', hcount, hnext⟩ := exists_waiting
  obtain ⟨l, hl, hlen, -⟩ := hall ⟨0, by decide⟩ s'
    ((hr.mono fun _ _ _ _ => trivial).step (h := 0) (a := .call (.do_kill 1)) hv nofun trivial ⟨hen, hs'⟩)
  cases l with
  | nil =>
    rw [hcount] at hlen
    cases hlen
  | cons j l =>
    have := hl.next_head.symm.trans hnext
    cases this

end OsLab.Sched
