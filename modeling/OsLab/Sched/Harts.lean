import OsLab.Sched.Runs

/-!
# One hart for a task

`do_kill` marks the tasks of a process as ended. A task that another hart is running at that moment
notices it only at its next trap; until then its slot counts as free, and a new task can be put into
it. As long as no process is killed while another hart runs one of its tasks, a slot is never shared
(`separate_of_reach`); one such kill is enough to share it (`separate_kill_fails`).
-/

namespace OsLab.Sched

open Lib ProgM

variable {s : Machine} {h : Hart} {a : Action}

/-- No task runs on two harts, and a free slot is not one that a hart is running. -/
def Separate (s : Machine) : Prop :=
  (∀ h h' i, s.mem.current_running h = some i → s.mem.current_running h' = some i → h = h') ∧
    ∀ i, get_free_pcb s.mem.pcb = some i → ∀ h, s.mem.current_running h ≠ some i

/-- Steps in which no process is killed that the other hart is executing. -/
def NoRemoteKill (m : Kernel) (h : Hart) (a : Action) : Prop := a.Valid m ∧ KillOk m h a

instance (m : Kernel) (h : Hart) (a : Action) : Decidable (NoRemoteKill m h a) := inferInstanceAs (Decidable (_ ∧ _))

theorem separate_of_reach (hr : Reach NoRemoteKill s) : Separate s := by
  obtain ⟨Q, -, hinv⟩ := hr.sound fun _ _ _ hp => hp
  refine ⟨fun h h' i => hinv.disc.excl, fun i hi h hc => ?_⟩
  have hrun : s.mem.status i = .TASK_RUNNING := hinv.cur h i hc
  rw [get_free_pcb_some hi] at hrun
  cases hrun

/-- The step uses no handle and kills nobody. -/
def Action.plain : Action → Bool
  | .timer => true
  | .resume _ => true
  | .call .do_exit => true
  | .call (.do_pthread_create _) => true
  | .call (.do_taskset_exec ..) => true
  | _ => false

theorem noRemoteKill_of_plain {m : Kernel} (ha : a.plain = true) : NoRemoteKill m h a := by
  cases a with
  | timer => exact ⟨trivial, nofun⟩
  | resume msg => exact ⟨trivial, nofun⟩
  | call call =>
    cases call with
    | do_exit => exact ⟨trivial, nofun⟩
    | do_pthread_create thread => exact ⟨trivial, nofun⟩
    | do_taskset_exec name mask => exact ⟨trivial, nofun⟩
    | _ => cases ha

theorem reach_plain {l : List (Hart × Action)} (hl : (l.all fun x => x.2.plain) = true) (hs : steps l .start = some s) :
    Reach NoRemoteKill s :=
  (Reach.boot boot_start).steps l (fun _ x hx => noRemoteKill_of_plain (List.all_eq_true.mp hl x hx)) hs

/-- Two processes run on the two harts. -/
theorem separate_twoTasks : ∃ s : Machine, s.mem.current_running 0 = some ⟨0, by decide⟩ ∧
    s.mem.current_running 1 = some ⟨1, by decide⟩ ∧ Separate s := by
  have hrun : (steps twoTasks .start).map (fun s => decide (s.mem.current_running 0 = some ⟨0, by decide⟩ ∧
      s.mem.current_running 1 = some ⟨1, by decide⟩)) = some true := by decide +kernel
  obtain ⟨s, he, hs⟩ := Option.map_eq_some_iff.mp hrun
  obtain ⟨h0, h1⟩ := of_decide_eq_true hs
  refine ⟨s, h0, h1, separate_of_reach ((Reach.boot boot_start).steps twoTasks ?_ he)⟩
  intro m x hx
  simp only [twoTasks, List.mem_cons, List.not_mem_nil, or_false] at hx
  rcases hx with rfl | rfl | rfl | rfl
  all_goals exact ⟨trivial, nofun⟩

/-- The task on hart 0 kills the process that hart 1 is running: its slot is the next one to be
handed out. -/
theorem separate_kill_fails : ¬ ∀ s, Reach (fun m _ a => a.Valid m) s → Separate s := by
  intro hall
  have hrun : (steps (twoTasks ++ [(0, .call (.do_kill 2))]) .start).map (fun s =>
      decide (s.mem.current_running 1 = some ⟨1, by decide⟩ ∧ get_free_pcb s.mem.pcb = some ⟨1, by decide⟩)) =
          some true := by
    decide +kernel
  obtain ⟨s, he, hs⟩ := Option.map_eq_some_iff.mp hrun
  obtain ⟨h1, hfree⟩ := of_decide_eq_true hs
  refine (hall s ((Reach.boot boot_start).steps _ ?_ he)).2 _ hfree 1 h1
  intro m x hx
  simp only [twoTasks, List.cons_append, List.nil_append, List.mem_cons, List.not_mem_nil, or_false] at hx
  rcases hx with rfl | rfl | rfl | rfl | rfl
  all_goals trivial

end OsLab.Sched
