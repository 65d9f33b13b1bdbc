import Mathlib.Data.Fintype.Card
import OsLab.Sched.Discipline

/-!
# Blocking, waking and switching

What the functions that move tasks between queues do to the lists. `do_block` and `add_readyqueue`
are single moves; the loops that wake tasks (`wakeAll`, `check_sleeping`) only make blocked tasks
ready, `Frame`; and `do_scheduler` leads from the middle of a call to a state in which every running
task is `TASK_RUNNING`, whatever has become of the task that called it.
-/

namespace OsLab.Sched

open Lib ProgM

variable {c c' : St} {h : Hart} {i j : Slot} {q : Queue}

/-- The status of one task is changed. -/
def Kernel.setStatus (s : Kernel) (i : Slot) (st : TaskStatus) : Kernel :=
  { s with pcb := Function.update s.pcb i { s.pcb i with status := st } }

theorem Kernel.status_setStatus (s : Kernel) (i : Slot) (st : TaskStatus) :
    (s.setStatus i st).status = Function.update s.status i st := by
  funext j
  by_cases hj : j = i
  · subst hj
    simp [Kernel.status, Kernel.setStatus]
  · simp [Kernel.status, Kernel.setStatus, hj]

/-- Task `i` goes to the queue `t` with status `st`. -/
def St.move (c : St) (i : Slot) (t : Option Queue) (st : TaskStatus) : St := ⟨c.mem.setStatus i st, c.dev.move i t⟩

theorem St.Disc.move (d : c.Disc) {t : Option Queue} {st : TaskStatus} (ht : ∀ q, t = some q → st = q.status)
    (hn : t = none → st ≠ .TASK_READY ∧ st ≠ .TASK_BLOCKED)
    (hr : st = .TASK_RUNNING → ∃ h, c.mem.current_running h = some i) : (c.move i t st).Disc := by
  rw [St.Disc, St.move, Kernel.status_setStatus]
  exact Sched.Disc.move d ht hn hr

theorem dev_move (c : St) (t : Option Queue) (st : TaskStatus) (q : Queue) :
    (c.move i t st).dev q = (c.dev q).erase i ++ if t = some q then [i] else [] := rfl

theorem status_move_self (c : St) (t : Option Queue) (st : TaskStatus) : (c.move i t st).mem.status i = st := by
  rw [St.move, Kernel.status_setStatus, Function.update_self]

theorem status_move_of_ne (c : St) (t : Option Queue) (st : TaskStatus) (hj : j ≠ i) :
    (c.move i t st).mem.status j = c.mem.status j := by
  rw [St.move, Kernel.status_setStatus, Function.update_of_ne hj]

/-- A move keeps the reasons of the others. -/
theorem reason_move {t : Option Queue} {st : TaskStatus} (hq : j ∈ c.dev q)
    (hst : st = .TASK_EXITED → c.dev (.wait i) = []) (hr : Reason c.mem q j) : Reason (c.move i t st).mem q j := by
  cases q with
  | wait k =>
    intro e
    by_cases hk : k = i
    · subst hk
      rw [status_move_self] at e
      rw [hst e] at hq
      cases hq
    · rw [status_move_of_ne _ _ _ hk] at e
      exact hr e
  | ready_queue => trivial
  | sleep_queue => trivial
  | mutex k => exact hr
  | barrier k => exact hr
  | condition k => exact hr
  | full k => exact hr
  | empty k => exact hr

theorem St.Waits.move (hw : c.Waits) (hd : c.Disc) {t : Option Queue} {st : TaskStatus}
    (hst : st = .TASK_EXITED → c.dev (.wait i) = []) (ht : ∀ q, t = some q → Reason (c.move i t st).mem q i) :
    (c.move i t st).Waits := by
  intro q j hj
  rcases (mem_move hd.nodup).mp hj with ⟨-, hq⟩ | ⟨rfl, e⟩
  · exact reason_move hq hst (hw q j hq)
  · exact ht q e

theorem Kernel.Pend.setStatus {s : Kernel} (hp : s.Pend) {st : TaskStatus}
    (hi : st ≠ .TASK_EXITED → s.status i ≠ .TASK_EXITED) :
    (s.setStatus i st).Pend := by
  intro j k hj hr
  refine hp j k ?_ hr
  rw [Kernel.status_setStatus] at hj
  by_cases hji : j = i
  · subst hji
    rw [Function.update_self] at hj
    exact hi hj
  · rwa [Function.update_of_ne hji] at hj

theorem isUp_move (hu : ∀ x, c.mem.status x ≠ .TASK_EXITED → c.dev.up x) {t : Option Queue} {s : TaskStatus}
    (hi : s ≠ .TASK_EXITED → c.mem.status i ≠ .TASK_EXITED)
    (x : Slot) (hx : (c.move i t s).mem.status x ≠ .TASK_EXITED) :
    (c.move i t s).dev.up x := by
  refine hu x ?_
  by_cases hxi : x = i
  · subst hxi
    rw [status_move_self] at hx
    exact hi hx
  · rwa [status_move_of_ne _ _ _ hxi] at hx

/-! ### Single moves -/

theorem exec_enqueue (hf : c.dev.Free i) (hup : c.dev.Up q) :
    exec listed (enqueue i q) c = some ((), ⟨c.mem, c.dev.move i (some q)⟩) := by
  rw [enqueue, exec_perform, move_free hf]
  simp [listed, hf, hup]

theorem exec_unlink (hf : ¬ c.dev.Free i) : exec listed (unlink i) c = some ((), ⟨c.mem, c.dev.move i none⟩) := by
  rw [unlink, exec_perform, move_none]
  simp [listed, hf]

theorem exec_setStatus {σ : Type} {H : Handler Op Op.Res σ} (d : Conf Kernel σ) (st : TaskStatus) :
    exec H (setStatus i st) d = some ((), ⟨d.mem.setStatus i st, d.dev⟩) := rfl

theorem exec_do_block (hf : c.dev.Free i) (hup : c.dev.Up q) :
    exec listed (do_block i q) c = some ((), c.move i (some q) .TASK_BLOCKED) := by
  rw [do_block, exec_bind, exec_enqueue hf hup]
  rfl

theorem exec_add_readyqueue (hf : c.dev.Free i) :
    exec listed (add_readyqueue i) c = some ((), c.move i (some .ready_queue) .TASK_READY) := by
  rw [add_readyqueue, exec_bind, exec_setStatus, Option.bind_some]
  exact exec_enqueue hf nofun

theorem exec_do_unblock (hn : ∀ q, (c.dev q).Nodup) (hf : ¬ c.dev.Free i) :
    exec listed (do_unblock i) c = some ((), c.move i (some .ready_queue) .TASK_READY) := by
  rw [do_unblock, exec_bind, exec_unlink hf, Option.bind_some, exec_add_readyqueue (free_move hn), St.move, St.move]
  simp only [move_move hn]

theorem exec_nextNode {n m : Node} (hup : c.dev.Up q) (hf : follower q (c.dev q) n = some m) :
    exec listed (nextNode q n) c = some (m, c) := by
  rw [nextNode, exec_perform]
  simp [listed, hf, hup]

theorem exec_first (hup : c.dev.Up q) : exec listed (nextNode q (.head q)) c = some (first q (c.dev q), c) :=
  exec_nextNode hup (by rw [follower, if_pos rfl])

theorem not_free (hi : i ∈ c.dev q) : ¬ c.dev.Free i := fun hf => hf q hi

/-- Waking one task. -/
theorem Frame.wake (hd : c.Disc) (hq : q ≠ .ready_queue) (hi : i ∈ c.dev q) :
    Frame c (c.move i (some .ready_queue) .TASK_READY) := by
  have hb : c.mem.status i = .TASK_BLOCKED := hd.blocked_iff.mpr ⟨q, hq, hi⟩
  refine ⟨rfl, rfl, rfl, rfl, rfl, fun j => ?_, fun j => ?_, fun p j hp hj => ?_, rfl, ?_⟩
  · by_cases hj : j = i
    · subst hj
      simp [St.move, Kernel.setStatus]
    · simp [St.move, Kernel.setStatus, hj]
  · by_cases hj : j = i
    · subst hj
      exact Or.inr ⟨hb, status_move_self ..⟩
    · exact Or.inl (status_move_of_ne _ _ _ hj)
  · rcases (mem_move hd.nodup).mp hj with ⟨-, h⟩ | ⟨-, h⟩
    · exact h
    · exact absurd (Option.some.inj h).symm hp
  · refine hd.move ?_ ?_ ?_
    · rintro _ ⟨⟩
      rfl
    · rintro ⟨⟩
    · rintro ⟨⟩

/-- A change of variables that keeps statuses, queues and reasons to wait. -/
theorem Frame.of_mem (hd : c.Disc) {s : Kernel} (hs : s.status = c.mem.status)
    (hp : ∀ i, (s.pcb i).pid = (c.mem.pcb i).pid)
    (h1 : s.current_running = c.mem.current_running) (h2 : s.resume = c.mem.resume) (h3 : s.barrier = c.mem.barrier)
    (h4 : s.condition = c.mem.condition) (h5 : s.mailbox = c.mem.mailbox) : Frame c ⟨s, c.dev⟩ := by
  refine ⟨h1, h2, h3, h4, h5, hp, fun i => Or.inl (by rw [hs]), fun _ _ _ hi => hi, rfl, ?_⟩
  rw [St.Disc, hs, h1]
  exact hd

/-! ### Loops that wake tasks -/

theorem length_lt (hd : c.Disc) (q : Queue) : (c.dev q).length < NUM_MAX_TASK + 1 := by
  have := List.Nodup.length_le_card (hd.nodup q)
  rw [Fintype.card_fin] at this
  omega

theorem wakeLoop_spec (hq : q ≠ .ready_queue) (fuel : ℕ)
    (hd : c.Disc) (hup : c.dev.Up q) (hf : (c.dev q).length < fuel) :
    Returns listed c (wakeLoop q fuel) fun _ c' =>
      Frame c c' ∧ c'.mem.mlocks = c.mem.mlocks ∧ c'.dev q = [] := by
  induction fuel generalizing c with
  | zero => exact absurd hf (Nat.not_lt_zero _)
  | succ fuel ih =>
    rw [wakeLoop]
    refine Returns.seq (exec_first hup) ?_
    cases hl : c.dev q with
    | nil =>
      rw [first]
      simp only [if_true]
      exact Returns.pure ⟨Frame.refl hd, rfl, hl⟩
    | cons i l =>
      rw [first]
      have hi : i ∈ c.dev q := by rw [hl]; exact List.mem_cons_self ..
      have hw := Frame.wake hd hq hi
      refine Returns.seq (exec_do_unblock hd.nodup (not_free hi)) ?_
      have hdev : (c.move i (some .ready_queue) .TASK_READY).dev q = l := by
        rw [dev_move, hl, List.erase_cons_head, if_neg (by simpa using Ne.symm hq), List.append_nil]
      refine (ih hw.disc hup (by rw [hdev]; rw [hl] at hf; simpa using hf)).mono ?_
      rintro _ c' ⟨hfr, hm, hnil⟩
      exact ⟨hw.trans hfr, hm, hnil⟩

/-- `wakeAll q` makes the tasks of `q` ready. -/
theorem wakeAll_spec (hd : c.Disc) (hq : q ≠ .ready_queue) (hup : c.dev.Up q) :
    Returns listed c (wakeAll q) fun _ c' => Frame c c' ∧ c'.mem.mlocks = c.mem.mlocks ∧ c'.dev q = [] :=
  wakeLoop_spec hq _ hd hup (length_lt hd q)

/-- The walk of `check_sleeping`, when `l₂` is what is left of the queue. -/
theorem checkLoop_spec (fuel : ℕ) (l₁ l₂ : List Slot) (hd : c.Disc)
    (hl : c.dev .sleep_queue = l₁ ++ l₂) (hf : l₂.length < fuel) :
    Returns listed c (checkLoop fuel (first .sleep_queue l₂)) fun _ c' =>
    Frame c c' ∧ c'.mem.mlocks = c.mem.mlocks := by
  induction fuel generalizing c l₁ l₂ with
  | zero => exact absurd hf (Nat.not_lt_zero _)
  | succ fuel ih =>
    cases l₂ with
    | nil =>
      rw [first, checkLoop, if_pos rfl]
      exact Returns.pure ⟨Frame.refl hd, rfl⟩
    | cons i l₂ =>
      have hnd := hd.nodup .sleep_queue
      rw [hl] at hnd
      have hi₁ : i ∉ l₁ := fun hi => (List.nodup_append.mp hnd).2.2 i hi i (List.mem_cons_self ..) rfl
      have hi : i ∈ c.dev .sleep_queue := by rw [hl]; simp
      rw [first, checkLoop]
      refine Returns.seq (exec_nextNode (m := first .sleep_queue l₂) (by rintro i ⟨⟩) ?_) ?_
      · rw [follower, if_pos hi, hl, Repr.tail_dropWhile hi₁]
      refine Returns.get_bind (Returns.seq (a := c.mem.clock 0) rfl ?_)
      generalize hc₁ : (Conf.mk _ _ : St) = c₁
      have hf₁ : Frame c c₁ := by rw [← hc₁]; exact Frame.of_mem hd rfl (fun _ => rfl) rfl rfl rfl rfl rfl
      have hm₁ : c₁.mem.mlocks = c.mem.mlocks := by rw [← hc₁]
      have hdev : c₁.dev = c.dev := by rw [← hc₁]
      rw [ifThen]
      split
      · have hw := Frame.wake hf₁.disc (by decide : Queue.sleep_queue ≠ .ready_queue) (hdev.symm ▸ hi)
        refine Returns.seq (exec_do_unblock hf₁.disc.nodup (not_free (hdev.symm ▸ hi))) ?_
        refine (ih l₁ l₂ hw.disc ?_ (by simpa using hf)).mono ?_
        · rw [dev_move, hdev, hl, List.erase_append_right _ hi₁, List.erase_cons_head,
            if_neg (by decide), List.append_nil]
        · rintro _ c' ⟨hfr, hm⟩
          exact ⟨(hf₁.trans hw).trans hfr, hm.trans hm₁⟩
      · refine Returns.bind (q := fun _ d => d = c₁) (Returns.pure rfl) ?_
        rintro _ _ rfl
        refine (ih (l₁ ++ [i]) l₂ hf₁.disc (by rw [hdev, hl]; simp) (by simpa using hf)).mono ?_
        rintro _ c' ⟨hfr, hm⟩
        exact ⟨hf₁.trans hfr, hm.trans hm₁⟩

theorem check_sleeping_spec (hd : c.Disc) :
    Returns listed c check_sleeping fun _ c' => Frame c c' ∧ c'.mem.mlocks = c.mem.mlocks := by
  rw [check_sleeping]
  refine Returns.seq (exec_first (q := .sleep_queue) nofun) ?_
  exact checkLoop_spec _ [] _ hd rfl (length_lt hd _)

/-! ### Switching -/

/-- The state after the running task of hart `h` has been put aside. -/
structure Idle (h : Hart) (c : St) : Prop extends Mid h c where
  aside : ∀ i, c.mem.current_running h = some i → c.mem.status i ≠ .TASK_RUNNING

theorem requeue_spec (hm : Mid h c) : Returns listed c (requeue h) fun _ c' => Idle h c' := by
  rw [requeue]
  refine Returns.get_bind ?_
  cases hc : c.mem.current_running h with
  | none =>
    refine Returns.pure ⟨hm, fun i hi => ?_⟩
    rw [hc] at hi
    cases hi
  | some i =>
    simp only [ifThen]
    split
    · next hr =>
      refine Returns.of_exec (exec_add_readyqueue (hm.disc.free_running hr)) ⟨⟨?_, ?_, ?_, ?_, ?_⟩, ?_⟩
      · refine hm.disc.move ?_ ?_ ?_
        · rintro _ ⟨⟩
          rfl
        · rintro ⟨⟩
        · rintro ⟨⟩
      · exact isUp_move hm.up fun _ e => by
          rw [Kernel.status, hr] at e
          cases e
      · refine hm.waits.move hm.disc ?_ ?_
        · rintro ⟨⟩
        · rintro _ ⟨⟩
          trivial
      · refine hm.pend.setStatus fun _ e => ?_
        rw [Kernel.status, hr] at e
        cases e
      · intro h' hne j hj
        have hji : j ≠ i := by
          rintro rfl
          exact hne (hm.disc.excl hj hc)
        rw [status_move_of_ne _ _ _ hji]
        exact hm.others h' hne j hj
      · intro j hj
        have : i = j := Option.some.inj (hc.symm.trans hj)
        subst this
        rw [status_move_self]
        decide
    · next hr =>
      refine Returns.pure ⟨hm, fun j hj => ?_⟩
      have : i = j := Option.some.inj (hc.symm.trans hj)
      subst this
      exact hr

/-- Switching to a task of the ready queue. -/
theorem pick_spec (hm : Idle h c) (hi : i ∈ c.dev .ready_queue) : Returns listed c
    (do
      setCurrent h (some i)
      remove_readyqueue i
      setPcb i fun p => { p with status := .TASK_RUNNING, current_cpu_id := UInt64.ofNat h }
      pure true) fun b c' => b = true ∧ Inv c' := by
  have hready : c.mem.status i = .TASK_READY := hm.disc.ready_iff.mpr hi
  -- the task is not running on the other hart
  have hother : ∀ h', h' ≠ h → c.mem.current_running h' ≠ some i := by
    intro h' hne e
    have := hm.others h' hne i e
    rw [hready] at this
    cases this
  rw [setCurrent]
  refine Returns.modify_bind ?_
  refine Returns.seq (exec_unlink (not_free hi)) ?_
  rw [setPcb]
  refine Returns.modify_bind (Returns.pure ⟨rfl, ?_⟩)
  generalize hc' : (Conf.mk _ _ : St) = c'
  have hst : c'.mem.status = Function.update c.mem.status i .TASK_RUNNING := by
    rw [← hc']
    funext j
    by_cases hj : j = i
    · subst hj
      simp [Kernel.status]
    · simp [Kernel.status, hj]
  have hcur : c'.mem.current_running = Function.update c.mem.current_running h (some i) := by rw [← hc']
  have hdev : c'.dev = c.dev.move i none := by rw [← hc']
  have hd : St.Disc c' := by
    rw [St.Disc, hst, hcur, hdev]
    refine (Sched.Disc.setCur hm.disc hm.aside ?_).move ?_ ?_ ?_
    · rintro j ⟨⟩
      exact hother
    · rintro q ⟨⟩
    · exact fun _ => by decide
    · exact fun _ => ⟨h, Function.update_self ..⟩
  have hup : ∀ x, c'.mem.status x ≠ .TASK_EXITED → c'.dev.up x := by
    intro x hx
    rw [hdev]
    refine isUp_move (i := i) (t := none) (s := .TASK_RUNNING) hm.up (fun _ => by rw [hready]; decide) x ?_
    rw [St.move, Kernel.status_setStatus, ← hst]
    exact hx
  refine ⟨hd, hup, ?_, ?_, ?_⟩
  · have hw : (c.move i none .TASK_RUNNING).Waits := hm.waits.move hm.disc (by rintro ⟨⟩) (by rintro q ⟨⟩)
    intro q j hj
    have hr := hw q j (by rw [hdev] at hj; exact hj)
    rw [← hc']
    cases q with
    | wait k =>
      have hs : (c.move i none .TASK_RUNNING).mem.status k = c'.mem.status k := by
        rw [St.move, Kernel.status_setStatus, hst]
      rw [Reason, hs] at hr
      rw [hc']
      exact hr
    | ready_queue => trivial
    | sleep_queue => trivial
    | mutex k => exact hr
    | barrier k => exact hr
    | condition k => exact hr
    | full k => exact hr
    | empty k => exact hr
  · intro j k hj hr
    have hr' : (c.mem.resume j).mailbox = some k := by rw [← hc'] at hr; exact hr
    have := hm.pend j k ?_ hr'
    · rw [← hc']
      exact this
    · intro e
      apply hj
      rw [hst]
      by_cases hji : j = i
      · subst hji
        rw [hready] at e
        cases e
      · rwa [Function.update_of_ne hji]
  · intro h' j hj
    rw [hcur] at hj
    rw [hst]
    by_cases hji : j = i
    · subst hji
      rw [Function.update_self]
    · rw [Function.update_of_ne hji]
      by_cases hh : h' = h
      · subst hh
        rw [Function.update_self] at hj
        exact absurd (Option.some.inj hj).symm hji
      · rw [Function.update_of_ne hh] at hj
        exact hm.others h' hh j hj

/-- The walk of `get_next_running`, when `l₂` is what is left of the ready queue. -/
theorem pickLoop_spec (fuel : ℕ) (l₁ l₂ : List Slot) (hm : Idle h c)
    (hl : c.dev .ready_queue = l₁ ++ l₂) (hf : l₂.length < fuel) :
    Returns listed c (pickLoop h fuel (first .ready_queue l₂)) fun b c' =>
    (b = true ∧ Inv c') ∨ (b = false ∧ c' = c) := by
  induction fuel generalizing l₁ l₂ with
  | zero => exact absurd hf (Nat.not_lt_zero _)
  | succ fuel ih =>
    cases l₂ with
    | nil =>
      rw [first, pickLoop, if_pos rfl]
      exact Returns.pure (Or.inr ⟨rfl, rfl⟩)
    | cons i l₂ =>
      have hnd := hm.disc.nodup .ready_queue
      rw [hl] at hnd
      have hi₁ : i ∉ l₁ := fun hi => (List.nodup_append.mp hnd).2.2 i hi i (List.mem_cons_self ..) rfl
      have hi : i ∈ c.dev .ready_queue := by rw [hl]; simp
      rw [first, pickLoop]
      refine Returns.get_bind ?_
      split
      · exact (pick_spec hm hi).mono fun b c' hb => Or.inl hb
      · refine Returns.seq (exec_nextNode (m := first .ready_queue l₂) (by rintro i ⟨⟩) ?_) ?_
        · rw [follower, if_pos hi, hl, Repr.tail_dropWhile hi₁]
        exact ih (l₁ ++ [i]) l₂ (by rw [hl]; simp) (by simpa using hf)

/-- No task can run: the hart goes to its `pid0` PCB. -/
theorem Idle.toPid0 (hm : Idle h c) :
    Inv ⟨{ c.mem with current_running := Function.update c.mem.current_running h none }, c.dev⟩ := by
  refine ⟨Sched.Disc.setCur hm.disc hm.aside (by rintro j ⟨⟩), hm.up, ?_, hm.pend, ?_⟩
  · intro q i hi
    have := hm.waits q i hi
    cases q <;> exact this
  · intro h' i hi
    have hi' : Function.update c.mem.current_running h none h' = some i := hi
    by_cases hh : h' = h
    · subst hh
      rw [Function.update_self] at hi'
      cases hi'
    · rw [Function.update_of_ne hh] at hi'
      exact hm.others h' hh i hi'

/-- `do_scheduler` ends in order, whatever has become of the task that calls it. -/
theorem do_scheduler_spec (hm : Mid h c) : Returns listed c (do_scheduler h) fun _ c' => Inv c' := by
  rw [do_scheduler]
  refine (check_sleeping_spec hm.disc).bind ?_
  rintro _ c₁ ⟨hf, hml⟩
  have hm₁ := hf.mid hm (hf.waits hml hm.waits)
  rw [get_next_running]
  refine Returns.bind (q := fun b c' => (b = true ∧ Inv c') ∨ (b = false ∧ Idle h c')) ?_ ?_
  · refine (requeue_spec hm₁).bind ?_
    intro _ c₂ hi
    refine Returns.seq (exec_first (q := .ready_queue) nofun) ?_
    refine (pickLoop_spec _ [] _ hi rfl (length_lt hi.disc _)).mono ?_
    rintro b c' (⟨rfl, hinv⟩ | ⟨rfl, rfl⟩)
    · exact Or.inl ⟨rfl, hinv⟩
    · exact Or.inr ⟨rfl, hi⟩
  · rintro b c' (⟨rfl, hinv⟩ | ⟨rfl, hi⟩)
    · exact Returns.pure hinv
    · exact Returns.of_exec rfl hi.toPid0

end OsLab.Sched
