import OsLab.Sched.Waiters

/-!
# What becomes of a task in a queue

A task that is in a queue of the kernel's clients (`Queue.Aside`: one for the end of a task, for a barrier, a
condition or a mailbox) stays there until the code that owns the queue takes it out, or `do_kill` ends it. The two
ways in which tasks end are treated here, for all these queues at once: after `do_exit` or `do_kill`, the
task is still in its queue, or has been ended, or it waited for a task that has ended (`Stays`).

A task that has ended stays so to the end of the step, since `do_scheduler` switches to ready tasks only.
-/

namespace OsLab.Sched

open Lib ProgM

variable {c c' : St} {h : Hart} {a : Action} {i j t x : Slot} {k : Handle} {q q' : Queue} {pid : Int32}

/-! ### The scheduler ends nobody, and nobody comes back -/

theorem pickLoop_exited (hd : c.Disc) (ht : c.mem.status t = .TASK_EXITED) (fuel : ℕ) (n : Node)
    (hn : ∀ x, n = .task x → x ∈ c.dev .ready_queue) :
    Ensures listed c (pickLoop h fuel n) fun _ c' => c'.mem.status t = .TASK_EXITED := by
  induction fuel generalizing n with
  | zero => exact Ensures.stop
  | succ fuel ih =>
    cases n with
    | task x =>
      rw [pickLoop]
      refine Ensures.get_bind (Ensures.ite (fun _ => ?_) fun _ => ?_)
      · have htx : t ≠ x := by
          rintro rfl
          rw [hd.ready_iff.mpr (hn t rfl)] at ht
          cases ht
        refine Ensures.modify_bind (Ensures.bind (q := fun _ c' => c'.mem.status t = .TASK_EXITED)
          (Ensures.perform fun _ _ _ => ht) ?_)
        intro _ c₁ ht₁
        refine Ensures.modify_bind (Ensures.pure ?_)
        simpa [Kernel.status, htx] using ht₁
      · refine (nextNode_mem _).bind ?_
        rintro m _ ⟨rfl, hm, -⟩
        exact ih m hm
    | head p => exact Ensures.ite (fun _ => Ensures.pure ht) fun _ => Ensures.stop

/-- A task that has ended is not scheduled again. -/
theorem do_scheduler_exited (hm : Mid h c) (ht : c.mem.status t = .TASK_EXITED) :
    Ensures listed c (do_scheduler h) fun _ c' => c'.mem.status t = .TASK_EXITED := by
  rw [do_scheduler]
  refine (Ensures.of_returns (check_sleeping_spec hm.disc)).bind ?_
  rintro _ c₁ ⟨hf, hml⟩
  have hm₁ := hf.mid hm (hf.waits hml hm.waits)
  have ht₁ := hf.exited_iff.mpr ht
  have hrequeue : Ensures listed c₁ (requeue h) fun _ c' => c'.mem.status t = .TASK_EXITED := by
    refine Ensures.get_bind ?_
    split
    · next x hx =>
      refine Ensures.ite (fun hrun => ?_) fun _ => Ensures.pure ht₁
      have htx : t ≠ x := by
        rintro rfl
        rw [Kernel.status, hrun] at ht₁
        cases ht₁
      refine Ensures.modify_bind (Ensures.perform fun _ _ _ => ?_)
      simpa [Kernel.status, htx] using ht₁
    · exact Ensures.pure ht₁
  have hpick : Ensures listed c₁ (get_next_running h) fun _ c' => c'.mem.status t = .TASK_EXITED := by
    rw [get_next_running]
    refine (hrequeue.and (Ensures.of_returns (requeue_spec hm₁))).bind ?_
    rintro _ c₂ ⟨ht₂, hi₂⟩
    refine (nextNode_mem _).bind ?_
    rintro n _ ⟨rfl, hn, -⟩
    exact pickLoop_exited hi₂.disc ht₂ _ n hn
  refine hpick.bind fun b c₂ ht₂ => Ensures.ite (fun _ => Ensures.pure ht₂) fun _ => ?_
  exact Ensures.modify ht₂

/-- A task that exits has ended when the call is over, and so has every task that had ended before. -/
theorem do_exit_exited (ha : At h x c) (ht : t = x ∨ c.mem.status t = .TASK_EXITED) :
    Ensures listed c (do_exit h x) fun _ c' => c'.mem.status t = .TASK_EXITED := by
  obtain ⟨d, hm, hex, he⟩ := exec_do_exit ha
  intro r c' hr
  exact do_scheduler_exited hm (hex t ht) r c' (he.symm.trans hr)

/-! ### Joining a queue -/

/-- A task that blocks is the last of its queue. -/
theorem blockIn_appends (hq : q.Aside) (ha : c.dev.Apart) (r : Resume) :
    Ensures listed c (blockIn h x q r) fun _ c' => c'.dev q = c.dev q ++ [x] := by
  rw [blockIn]
  refine Ensures.modify_bind (Ensures.bind (q := fun _ (c' : St) => c'.dev q = c.dev q ++ [x] ∧ c'.dev.Apart) ?_ ?_)
  · have henq : Ensures listed ⟨{ c.mem with resume := Function.update c.mem.resume x r }, c.dev⟩ (enqueue x q)
        fun _ c' => c'.dev q = c.dev q ++ [x] ∧ c'.dev.Apart := by
      have happart := enqueue_spares (q := .ready_queue) (o := none) (i := x) hq.ne_ready
        ⟨{ c.mem with resume := Function.update c.mem.resume x r }, c.dev⟩ ha
      refine Ensures.mono
        (Ensures.and (Ensures.perform (p := fun _ (c' : St) => c'.dev q = c.dev q ++ [x]) ?_) happart) ?_
      · intro _ d he
        simp only [listed, Option.ite_none_right_eq_some, Option.some.injEq, Prod.mk.injEq] at he
        obtain ⟨-, -, rfl⟩ := he
        exact Function.update_self ..
      · exact fun _ _ hp => ⟨hp.1, hp.2.1⟩
    exact henq.bind fun _ c₁ h₁ => Ensures.modify h₁
  · rintro _ c₁ ⟨hdev, ha₁⟩
    refine (hq.scheduler (o := none) c₁ ha₁).mono fun _ c' hc' => ?_
    rw [hc'.2.1, hdev]

/-- A task stays in its queue when another blocks. -/
theorem blockIn_stays (hq : q.Aside) (ha : c.dev.Apart) (hi : i ∈ c.dev q) (r : Resume) :
    Ensures listed c (blockIn h x q' r) fun _ c' => i ∈ c'.dev q := by
  by_cases hne : q' = q
  · subst hne
    refine (blockIn_appends hq ha r).mono fun _ c' hc' => ?_
    rw [hc']
    exact List.mem_append_left _ hi
  · refine (hq.block (i := x) hne r c ha).mono fun _ c' hc' => ?_
    rw [hc'.2.1]
    exact hi

/-- A task whose queue has been emptied by waking its tasks is ready. -/
theorem Frame.woken (f : Frame c c') (hd : c.Disc) (hq : q ≠ .ready_queue) (hi : i ∈ c.dev q) (hnil : c'.dev q = []) :
    c'.mem.status i = .TASK_READY := by
  have hb : c.mem.status i = .TASK_BLOCKED := hd.blocked_iff.mpr ⟨q, hq, hi⟩
  rcases f.status i with e | ⟨-, e⟩
  · -- a task that is still blocked is in another queue, and was there before
    obtain ⟨p, hp, hip⟩ := f.disc.blocked_iff.mp (e.trans hb)
    obtain rfl := hd.disjoint hi (f.sub p i hp hip)
    rw [hnil] at hip
    cases hip
  · exact e

/-- Only `do_kill` takes tasks out of a queue in which it has not found them. -/
theorem spares_of_kill (hq : ¬ q.Meets) (hkill : ∀ pid, a ≠ .call (.do_kill pid)) : a.Spares q := by
  have hbarrier : ∀ k, q ≠ .barrier k := by
    rintro k rfl
    exact hq trivial
  have hcondition : ∀ k, q ≠ .condition k := by
    rintro k rfl
    exact hq trivial
  cases a with
  | timer => trivial
  | resume msg => trivial
  | call call =>
    cases call with
    | do_kill pid => exact hkill pid rfl
    | do_barrier_wait k => exact hbarrier k
    | do_barrier_destroy k => exact hbarrier k
    | do_condition_wait k m => exact hcondition k
    | do_condition_signal k => exact hcondition k
    | do_condition_broadcast k => exact hcondition k
    | do_condition_destroy k => exact hcondition k
    | _ => trivial

/-! ### Exit and kill -/

/-- Task `i` is in the queue, or has ended, or the task has ended that it waited for. -/
def Stays (i : Slot) (q : Queue) (c : St) : Prop :=
  i ∈ c.dev q ∨ c.mem.status i = .TASK_EXITED ∨ ∃ t, q = .wait t ∧ c.mem.status t = .TASK_EXITED

theorem Stays.of_spares {y : SchedM Unit} {o : Option Slot} (hi : i ∈ c.dev q) (hd : c.Disc) (hy : SparesAt q o c y) :
    Ensures listed c y fun _ c' => Stays i q c' := by
  refine (hy hd.apart).mono fun _ c' hc' => Or.inl ?_
  rw [hc'.2.1]
  exact hi

theorem do_exit_stays (hq : q.Aside) (ha : At h x c) (hi : Stays i q c) :
    Ensures listed c (do_exit h x) fun _ c' => Stays i q c' := by
  rcases hi with hi | hi | ⟨t, rfl, ht⟩
  · by_cases hx : .wait x = q
    · exact (do_exit_exited ha (Or.inl rfl)).mono fun _ _ he => Or.inr (Or.inr ⟨x, hx.symm, he⟩)
    · exact Stays.of_spares hi ha.disc (hq.exit hx c)
  · exact (do_exit_exited ha (Or.inr hi)).mono fun _ _ he => Or.inr (Or.inl he)
  · exact (do_exit_exited ha (Or.inr ht)).mono fun _ _ he => Or.inr (Or.inr ⟨t, rfl, he⟩)

/-- A round of `do_kill` that ends task `j`. -/
theorem killPcb_stays (hq : q.Aside) (ha : At h x c) (hp : pid_to_pcb_id c.mem.pcb pid = some j) (hjx : j ≠ x)
    (hother : ∀ h', h' ≠ h → ∀ x, c.mem.current_running h' = some x → (c.mem.pcb x).pid ≠ pid) (hi : Stays i q c) :
    Ensures listed c (killPcb j pid) fun _ c' => Stays i q c' := by
  have hround := Ensures.of_returns (killRound_spec ha hp hjx hother)
  rcases hi with hi | hi | ⟨t, rfl, ht⟩
  · by_cases hjq : .wait j = q
    · exact hround.mono fun _ c' hc' => Or.inr (Or.inr ⟨j, hjq.symm, hc'.2.2.1⟩)
    by_cases hji : j = i
    · subst hji
      exact hround.mono fun _ c' hc' => Or.inr (Or.inl hc'.2.2.1)
    · refine (killPcb_erases hq hjq ha.disc.apart).mono fun _ c' hc' => Or.inl ?_
      rw [hc'.1]
      exact (List.mem_erase_of_ne (Ne.symm hji)).mpr hi
  · exact hround.mono fun _ c' hc' => Or.inr (Or.inl (hc'.2.1.exited i hi))
  · exact hround.mono fun _ c' hc' => Or.inr (Or.inr ⟨t, rfl, hc'.2.1.exited t ht⟩)

theorem killLoop_stays (hq : q.Aside) (fuel : ℕ) (ha : At h x c)
    (hother : ∀ h', h' ≠ h → ∀ x, c.mem.current_running h' = some x → (c.mem.pcb x).pid ≠ pid) (hi : Stays i q c) :
    Ensures listed c (killLoop h x pid fuel) fun _ c' => Stays i q c' := by
  induction fuel generalizing c with
  | zero => exact Ensures.stop
  | succ fuel ih =>
    rw [killLoop]
    refine Ensures.get_bind ?_
    cases hp : pid_to_pcb_id c.mem.pcb pid with
    | none => exact Ensures.modify hi
    | some j =>
      refine Ensures.ite (fun _ => do_exit_stays hq ha hi) fun hjx => ?_
      refine ((killPcb_stays hq ha hp hjx hother hi).and (Ensures.of_returns (killRound_spec ha hp hjx hother))).bind ?_
      rintro _ c₁ ⟨hi₁, ha₁, -, -, hother₁⟩
      exact ih ha₁ hother₁ hi₁

/-- A step that ends tasks. -/
theorem act_ends_stays (hq : q.Aside) (hinv : Inv c) (hk : KillOk c.mem h a)
    (ha : (∃ pid, a = .call (.do_kill pid)) ∨ a = .call .do_exit) (hi : i ∈ c.dev q) :
    Ensures listed c (act h a) fun _ c' => Stays i q c' := by
  intro r c' he
  rcases ha with ⟨pid, rfl⟩ | rfl
  · obtain ⟨x, hx⟩ := exists_task he fun _ _ _ => ⟨nofun, nofun, nofun⟩
    have ha : At h x c := ⟨hinv, hx⟩
    exact Ensures.act_call ha (e := .do_kill pid) (killLoop_stays hq _ ha (hk pid rfl) (Or.inl hi)) r c' he
  · obtain ⟨x, hx⟩ := exists_task he fun _ _ _ => ⟨nofun, nofun, nofun⟩
    have ha : At h x c := ⟨hinv, hx⟩
    exact Ensures.act_call ha (e := .do_exit) (do_exit_stays hq ha (Or.inl hi)) r c' he

end OsLab.Sched
