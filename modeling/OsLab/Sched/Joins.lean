import OsLab.Sched.Stays

/-!
# Waiting for the end of a task

`do_waitpid(pid)` is to wait for the main thread of a process, and `do_pthread_join(t)` for thread `t` of
the caller's process. Both put their caller into the `block_queue` of a slot, and whoever is in that slot
empties it when it ends. `do_waitpid` takes the first slot in which the pid is found. The threads of a
process share its pid and are put into whatever slot is free, so the first slot may be that of a thread,
and the call returns when the thread ends (`waitpid_thread_fails`). When the slot is that of the task
that the call is about, the caller stays in the queue until this task has ended (`ended_of_returned`).

The queue of the tasks that wait for task `t` is left alone by most steps. A task may join it, `t` may exit, and
`do_kill` may end `t` or the waiting task itself (`act_awaits`).
-/

namespace OsLab.Sched

open Lib ProgM

variable {c c' : St} {s s' : Machine} {h : Hart} {a : Action}
    {i j t x : Slot} {q q' : Queue} {pid : Int32} {ended : Bool}

/-! ### What is waited for -/

/-- The tasks that a call of task `i` is to wait for: the main thread of a process, or a thread of its own
process. -/
def Target (m : Kernel) (i : Slot) (call : Call) (t : Slot) : Prop :=
  m.status t ≠ .TASK_EXITED ∧
    match call with
    | .do_waitpid pid => (m.pcb t).pid = pid ∧ (m.pcb t).pthread_id = 0
    | .do_pthread_join thread => (m.pcb t).pid = (m.pcb i).pid ∧ (m.pcb t).pthread_id = thread
    | _ => False

instance (m : Kernel) (i : Slot) (call : Call) (t : Slot) : Decidable (Target m i call t) := by
  unfold Target
  rcases call <;> infer_instance

/-- The slot whose `block_queue` a call of task `i` joins. -/
def joined (m : Kernel) (i : Slot) : Call → Option Slot
  | .do_waitpid pid => pid_to_pcb_id m.pcb pid
  | .do_pthread_join thread => search_pthread_pcb m.pcb (m.pcb i).pid thread
  | _ => none

/-- The slot that is found is that of every task that the call is to wait for. -/
def Direct (m : Kernel) (i : Slot) (call : Call) : Prop := ∀ t, Target m i call t → joined m i call = some t

instance (m : Kernel) (i : Slot) (call : Call) : Decidable (Direct m i call) := inferInstanceAs (Decidable (∀ _, _))

/-- Task `t` has ended. -/
def hasEnded (t : Slot) (m : Kernel) : Bool := m.status t = .TASK_EXITED

/-- Runs from a call of task `i` that is to wait for task `t`, and that meets `P`, as long as `i` is alive.
`ended` says whether `t` has been `TASK_EXITED` since. -/
inductive Awaits (P : Kernel → Slot → Call → Prop) (i t : Slot) : Bool → Machine → Prop where
  /-- The call. -/
  | call {s s' : Machine} {h : Hart} {call : Call} (hr : Reach NoRemoteKill s) (hi : s.mem.current_running h = some i)
      (ht : Target s.mem i call t) (hp : P s.mem i call) (hs : Step h (.call call) s s') :
      Awaits P i t (hasEnded t s'.mem) s'
  /-- Any step. -/
  | step {ended : Bool} {s s' : Machine} {h : Hart} {a : Action}
      (hr : Awaits P i t ended s) (hi : s.mem.status i ≠ .TASK_EXITED)
      (hv : NoRemoteKill s.mem h a) (hs : Step h a s s') : Awaits P i t (ended || hasEnded t s'.mem) s'

/-- Task `i` runs, and not in the kernel. -/
def Returned (i : Slot) (s : Machine) : Prop := ∃ h, s.mem.current_running h = some i ∧ s.mem.resume i = .user

instance : Decidable (Returned i s) := inferInstanceAs (Decidable (∃ _, _))

/-! ### The waiting task -/

theorem do_waitpid_awaits (hd : c.Disc) (hi : i ∈ c.dev (.wait t)) :
    Ensures listed c (do_waitpid h x pid) fun _ c' => Stays i (.wait t) c' := by
  refine Ensures.get_bind ?_
  split
  · exact Ensures.modify (Or.inl hi)
  · exact (blockIn_stays (q := .wait t) trivial hd.apart hi _).mono fun _ _ hc' => Or.inl hc'

theorem do_pthread_join_awaits {thread : Int32} (hd : c.Disc) (hi : i ∈ c.dev (.wait t)) :
    Ensures listed c (do_pthread_join h x thread) fun _ c' => Stays i (.wait t) c' := by
  refine Ensures.get_bind ?_
  split
  · exact Ensures.modify (Or.inl hi)
  · exact (blockIn_stays (q := .wait t) trivial hd.apart hi _).mono fun _ _ hc' => Or.inl hc'

/-- What a step does to a waiting task. -/
theorem act_awaits (hinv : Inv c) (hk : KillOk c.mem h a) (hi : i ∈ c.dev (.wait t)) :
    Ensures listed c (act h a) fun _ c' => Stays i (.wait t) c' := by
  intro r c' he
  by_cases hends : (∃ pid, a = .call (.do_kill pid)) ∨ a = .call .do_exit
  · exact act_ends_stays (q := .wait t) trivial hinv hk hends hi r c' he
  rw [not_or, not_exists] at hends
  obtain ⟨hkill, hexit⟩ := hends
  by_cases hwait : ∃ pid, a = .call (.do_waitpid pid)
  · obtain ⟨pid, rfl⟩ := hwait
    obtain ⟨x, hx⟩ := exists_task he fun _ _ _ => ⟨nofun, nofun, nofun⟩
    exact Ensures.act_call ⟨hinv, hx⟩ (e := .do_waitpid pid) (do_waitpid_awaits hinv.disc hi) r c' he
  by_cases hjoin : ∃ thread, a = .call (.do_pthread_join thread)
  · obtain ⟨thread, rfl⟩ := hjoin
    obtain ⟨x, hx⟩ := exists_task he fun _ _ _ => ⟨nofun, nofun, nofun⟩
    exact Ensures.act_call ⟨hinv, hx⟩ (e := .do_pthread_join thread) (do_pthread_join_awaits hinv.disc hi) r c' he
  · refine Stays.of_spares hi hinv.disc (act_aside (q := .wait t) trivial (spares_of_kill nofun hkill) ?_ ?_) r c' he
    · rintro x call - rfl
      cases call with
      | do_exit => exact absurd rfl hexit
      | do_waitpid pid => exact absurd ⟨pid, rfl⟩ hwait
      | do_pthread_join thread => exact absurd ⟨thread, rfl⟩ hjoin
      | do_mbox_send k msg len => exact ⟨nofun, nofun⟩
      | do_mbox_recv k len => exact ⟨nofun, nofun⟩
      | _ => trivial
    · exact fun _ _ _ _ _ _ => ⟨nofun, nofun⟩

/-- The call puts its task into the queue of the task that it is to wait for. -/
theorem call_awaits {call : Call} (ha : At h i c) (hj : joined c.mem i call = some t) :
    Ensures listed c (handle_syscall h i call) fun _ c' => Stays i (.wait t) c' := by
  have hjoins : ∀ r, Ensures listed c (blockIn h i (.wait t) r) fun _ c' => Stays i (.wait t) c' := by
    intro r
    refine (blockIn_appends (q := .wait t) trivial ha.disc.apart r).mono fun _ c' hc' => Or.inl ?_
    rw [hc']
    exact List.mem_append_right _ (List.mem_singleton_self i)
  cases call with
  | do_waitpid pid =>
    have hp : pid_to_pcb_id c.mem.pcb pid = some t := hj
    refine Ensures.get_bind ?_
    simp only [hp]
    exact hjoins _
  | do_pthread_join thread =>
    have hp : search_pthread_pcb c.mem.pcb (c.mem.pcb i).pid thread = some t := hj
    refine Ensures.get_bind ?_
    simp only [hp]
    exact hjoins _
  | _ => cases hj

/-! ### Runs -/

/-- What every run keeps: the queues are in order, and if neither task has ended since, the one waits for the
other. -/
theorem Awaits.kept (hr : Awaits Direct i t ended s) : ∃ Q : Queues, Repr Q s.dev ∧ Inv ⟨s.mem, Q⟩ ∧
    (ended = true ∨ s.mem.status i = .TASK_EXITED ∨ i ∈ Q (.wait t)) := by
  induction hr with
  | @call s s' h call hr hi ht hp hs =>
    obtain ⟨Q, hrep, hinv⟩ := hr.sound fun _ _ _ hp => hp
    have hv : Action.Valid s.mem (.call call) ∧ KillOk s.mem h (.call call) := by
      cases call with
      | do_waitpid pid => exact ⟨trivial, killOk_of_ne nofun⟩
      | do_pthread_join thread => exact ⟨trivial, killOk_of_ne nofun⟩
      | _ => exact ht.2.elim
    obtain ⟨Q', hrep', hinv', he⟩ := hs.listed hrep hinv hv.1 hv.2
    refine ⟨Q', hrep', hinv', ?_⟩
    have ha : At h i ⟨s.mem, Q⟩ := ⟨hinv, hi⟩
    rcases Ensures.act_call ha (e := call) (call_awaits ha (hp t ht)) _ _ he with hin | hex | ⟨_, ⟨⟩, hex⟩
    · exact Or.inr (Or.inr hin)
    · exact Or.inr (Or.inl hex)
    · exact Or.inl (decide_eq_true hex)
  | step hr hi hv hs ih =>
    obtain ⟨Q, hrep, hinv, hrest⟩ := ih
    obtain ⟨Q', hrep', hinv', he⟩ := hs.listed hrep hinv hv.1 hv.2
    refine ⟨Q', hrep', hinv', ?_⟩
    rcases hrest with hended | hex | hin
    · exact Or.inl (by rw [hended, Bool.true_or])
    · exact absurd hex hi
    · rcases act_awaits hinv hv.2 hin _ _ he with hin | hex | ⟨_, ⟨⟩, hex⟩
      · exact Or.inr (Or.inr hin)
      · exact Or.inr (Or.inl hex)
      · exact Or.inl (by rw [hasEnded, decide_eq_true hex, Bool.or_true])

/-- **Waiting for a process or thread.** When the slots that `do_waitpid` and `do_pthread_join` find are those
of the tasks that they are to wait for, then in every run they return only after these tasks have ended. -/
theorem ended_of_returned (hr : Awaits Direct i t ended s) (hret : Returned i s) : ended = true := by
  obtain ⟨Q, hrep, hinv, hrest⟩ := hr.kept
  obtain ⟨h, hcur, -⟩ := hret
  have hrun : s.mem.status i = .TASK_RUNNING := hinv.cur h i hcur
  rcases hrest with hended | hex | hin
  · exact hended
  · rw [hrun] at hex
    cases hex
  · exact absurd hin (hinv.disc.free_running hrun _)

/-- The state after the given steps, if they can all be taken while task `i` is alive, and whether task `t` has
ended. -/
def watch (i t : Slot) : List (Hart × Action) → Bool × Machine → Option (Bool × Machine)
  | [], r => some r
  | (h, a) :: l, (ended, s) =>
    if Enabled s.mem h a ∧ s.mem.status i ≠ .TASK_EXITED then
      (exec pointers (act h a) s).bind fun r => watch i t l (ended || hasEnded t r.2.mem, r.2)
    else none

theorem Awaits.watch {P : Kernel → Slot → Call → Prop} {r : Bool × Machine}
    (hr : Awaits P i t ended s) (l : List (Hart × Action))
    (hl : (l.all fun x => x.2.plain) = true) (he : watch i t l (ended, s) = some r) : Awaits P i t r.1 r.2 := by
  induction l generalizing ended s with
  | nil =>
    obtain rfl := Option.some.inj he
    exact hr
  | cons x l ih =>
    obtain ⟨h, a⟩ := x
    rw [Sched.watch, Option.ite_none_right_eq_some, Option.bind_eq_some_iff] at he
    obtain ⟨⟨hen, hi⟩, ⟨⟨⟩, s₁⟩, hex, he⟩ := he
    rw [List.all_cons, Bool.and_eq_true] at hl
    exact ih (hr.step hi (noRemoteKill_of_plain hl.1) ⟨hen, hex⟩) hl.2 he

/-- A process waits for another, which exits. -/
theorem returned_after_exit : ∃ (ended : Bool) (s : Machine), Awaits Direct ⟨0, by decide⟩ ⟨1, by decide⟩ ended s ∧
    Returned ⟨0, by decide⟩ s ∧ ended = true := by
  have hrun : (steps meeting .start).bind (fun s => (exec pointers (act 0 (.call (.do_waitpid 2))) s).bind fun r =>
      (watch ⟨0, by decide⟩ ⟨1, by decide⟩ [(0, .call .do_exit), (0, .resume fun _ => 0)]
          (hasEnded ⟨1, by decide⟩ r.2.mem, r.2)).map fun r' =>
        decide (Enabled s.mem 0 (.call (.do_waitpid 2)) ∧ s.mem.current_running 0 = some ⟨0, by decide⟩ ∧
          Target s.mem ⟨0, by decide⟩ (.do_waitpid 2) ⟨1, by decide⟩ ∧ Direct s.mem ⟨0, by decide⟩ (.do_waitpid 2) ∧
          Returned ⟨0, by decide⟩ r'.2)) = some true := by
    decide +kernel
  obtain ⟨s, hs, hrun⟩ := Option.bind_eq_some_iff.mp hrun
  obtain ⟨⟨⟨⟩, s₁⟩, hs₁, hrun⟩ := Option.bind_eq_some_iff.mp hrun
  obtain ⟨⟨ended, s'⟩, hs', hrun⟩ := Option.map_eq_some_iff.mp hrun
  obtain ⟨hen, hcur, ht, hd, hret⟩ := of_decide_eq_true hrun
  have hr₁ := Awaits.call (P := Direct) (reach_plain rfl hs) hcur ht hd ⟨hen, hs₁⟩
  have hr := hr₁.watch [(0, .call .do_exit), (0, .resume fun _ => 0)] rfl hs'
  exact ⟨ended, s', hr, hret, ended_of_returned hr hret⟩

/-- `main` starts three processes. The first exits, and the second creates a thread, which gets the slot of the
first. The third runs. -/
def reused : List (Hart × Action) :=
  [(0, .call (.do_taskset_exec ⟨[], length_nil_lt⟩ 3)), (0, .call (.do_taskset_exec ⟨[], length_nil_lt⟩ 3)),
    (0, .call (.do_taskset_exec ⟨[], length_nil_lt⟩ 3)), (0, .timer),
    (0, .call .do_exit), (0, .call (.do_pthread_create 7)), (0, .timer)]

/-- The third process waits for the second. The thread exits, and the call returns while the main thread is
alive. -/
theorem waitpid_thread_fails :
    ¬ ∀ (i t : Slot) (ended : Bool) (s : Machine), Awaits (fun _ _ _ => True) i t ended s → Returned i s →
    ended = true := by
  intro hall
  have hrun : (steps reused .start).bind (fun s => (exec pointers (act 0 (.call (.do_waitpid 2))) s).bind fun r =>
      (watch ⟨2, by decide⟩ ⟨1, by decide⟩ [(0, .call .do_exit), (0, .timer), (0, .resume fun _ => 0)]
        (hasEnded ⟨1, by decide⟩ r.2.mem, r.2)).map fun r' =>
          decide (Enabled s.mem 0 (.call (.do_waitpid 2)) ∧ s.mem.current_running 0 = some ⟨2, by decide⟩ ∧
            Target s.mem ⟨2, by decide⟩ (.do_waitpid 2) ⟨1, by decide⟩ ∧ Returned ⟨2, by decide⟩ r'.2 ∧ r'.1 = false)) =
            some true := by
    decide +kernel
  obtain ⟨s, hs, hrun⟩ := Option.bind_eq_some_iff.mp hrun
  obtain ⟨⟨⟨⟩, s₁⟩, hs₁, hrun⟩ := Option.bind_eq_some_iff.mp hrun
  obtain ⟨⟨ended, s'⟩, hs', hrun⟩ := Option.map_eq_some_iff.mp hrun
  obtain ⟨hen, hcur, ht, hret, hended⟩ := of_decide_eq_true hrun
  have hr₁ := Awaits.call (P := fun _ _ _ => True) (reach_plain rfl hs) hcur ht trivial ⟨hen, hs₁⟩
  have hr := hr₁.watch [(0, .call .do_exit), (0, .timer), (0, .resume fun _ => 0)] rfl hs'
  have hended : ended = false := hended
  rw [hall _ _ ended s' hr hret] at hended
  cases hended

end OsLab.Sched
